/-
# View — a buffer seen through a layout

A view is made only over a buffer that covers every element its layout addresses, and
carries the proof of it.  This is what lets the products read by computed offset: the
checks of a call need to look at extents and strides alone.
-/
import SubByte.Tensor.Buffer
import SubByte.Layout.Basic

namespace SubByte

/-- A buffer and a layout that stays within it. -/
structure View where
  buffer : Buffer
  layout : Layout
  covered : ∃ len, layout.requiredLength? = .ok len ∧ len ≤ buffer.length

namespace View

/-- The view of a buffer through a layout, if the buffer is long enough for it. -/
def ofLayout (buffer : Buffer) (layout : Layout) : Except QuantError View :=
  match h : layout.requiredLength? with
  | .error cause => .error (.shapeMismatch cause)
  | .ok len =>
    if hlen : len ≤ buffer.length then .ok ⟨buffer, layout, len, h, hlen⟩
    else .error (.bufferTooSmall .array len buffer.length)

/-- The dense view of a shape. -/
def contiguous (buffer : Buffer) (shape : List Nat) : Except QuantError View :=
  ofLayout buffer (.contiguous shape)

/-- The view of a shape with strides of its own. -/
def strided (buffer : Buffer) (shape strides : List Nat) : Except QuantError View :=
  match Layout.strided shape strides with
  | .ok layout => ofLayout buffer layout
  | .error cause => .error (.shapeMismatch cause)

/-- The element type. -/
def dtype (view : View) : DType :=
  view.buffer.dtype

/-- The extents. -/
def shape (view : View) : List Nat :=
  view.layout.shape

/-- The whole buffer at the given element type, if it is the view's. -/
def as? (view : View) (d : DType) : Option (List d.Elem) :=
  view.buffer.as? d

theorem ofLayout_eq_ok {buffer : Buffer} {layout : Layout} {len : Nat}
    (h : layout.requiredLength? = .ok len) (hlen : len ≤ buffer.length) :
    ofLayout buffer layout = .ok ⟨buffer, layout, len, h, hlen⟩ := by
  unfold ofLayout
  split
  · next e => rw [h] at e; cases e
  · next e =>
    rw [h] at e
    cases e
    rw [dif_pos hlen]

end View

end SubByte
