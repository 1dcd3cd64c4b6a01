import SubByte.Simd
import SubByte.Dense.Affine
import SubByte.Quantizer.Weights
import SubByte.Product.Batched
import SubByte.Product.Gathered
import SubByte.Proofs.Blocks
import SubByte.Proofs.Packing.Stream
import SubByte.Proofs.Packing.Units
import SubByte.Proofs.Packing.Bits
import SubByte.Proofs.Product.StoredRows
import SubByte.Proofs.Product.Kernels
import SubByte.Proofs.Product.Lanes
import SubByte.Proofs.Product.Whole
import SubByte.Proofs.Dense.Affine
import SubByte.Proofs.Product.Agreement
import SubByte.Proofs.Layout.Coordinates
import SubByte.Proofs.Layout.Coverage
import SubByte.Proofs.Layout.Broadcast
import SubByte.Proofs.Tensor.Logical
import SubByte.Proofs.Product.Settled
import SubByte.Proofs.Product.Run
import SubByte.Proofs.Product.Batches
import SubByte.Proofs.Product.Planned
import SubByte.Proofs.Product.Atomicity
import SubByte.Proofs.Product.Logical
import SubByte.Proofs.Binary.Order
import SubByte.Proofs.Packing.Codes
import SubByte.Proofs.Quantizer.Checks
import SubByte.Proofs.Quantizer.Encoded
import SubByte.Proofs.Product.Regrouping
import SubByte.Proofs.Product.Planar
import SubByte.Proofs.Product.GatheredBlocks
import SubByte.Proofs.Quantizer.Expanded
import SubByte.Proofs.Layout.Dense
import SubByte.Proofs.Product.Accepted
import SubByte.Proofs.Quantizer.Tensor
import SubByte.Proofs.Product.Composed
import SubByte.Proofs.Binary.Nearest
import SubByte.Proofs.Binary.Value
import SubByte.Proofs.Binary.Operations
import SubByte.Proofs.Quantizer.Extremes
import SubByte.Proofs.Quantizer.Parameters
import SubByte.Proofs.Quantizer.RoundTrip
import SubByte.Proofs.Quantizer.Coding
import SubByte.Proofs.Quantizer.Edge
import SubByte.Proofs.Quantizer.Magnitude
import SubByte.Proofs.Quantizer.Overflow
import SubByte.Proofs.Quantizer.Half
import SubByte.Proofs.Quantizer.Finite
import SubByte.Proofs.Layout.Reach
import SubByte.Proofs.Product.Verdict
import SubByte.Proofs.Binary.Monotone
import SubByte.Proofs.Quantizer.Ordered
import SubByte.Proofs.Binary.Grid
import SubByte.Proofs.Quantizer.Decoding
import SubByte.Proofs.Quantizer.Deviation
import SubByte.Proofs.Layout.Repetition
import SubByte.Proofs.Written
import SubByte.Proofs.Product.Prefixes
import SubByte.Proofs.Product.Writer
import SubByte.Proofs.Product.Orientation
import SubByte.Proofs.Product.Flattening
import SubByte.Proofs.Layout.Slices
import SubByte.Proofs.Layout.Identity
import SubByte.Proofs.Quantizer.Shown
import SubByte.Proofs.Binary.Number
import SubByte.Proofs.Quantizer.Numbers
import SubByte.Proofs.Quantizer.Writer
import SubByte.Proofs.Dense.Transposition
import SubByte.Proofs.Layout.Counting
import SubByte.Proofs.Packing.Writing
import SubByte.Proofs.Packing.Access
import SubByte.Proofs.Packing.Containment
import SubByte.Proofs.Packing.Masks
import SubByte.Proofs.Extent
