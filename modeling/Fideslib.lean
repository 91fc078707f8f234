import Fideslib.Allocation.Bank
import Fideslib.Allocation.Contract
import Fideslib.Api.BootstrapSetupContract
import Fideslib.Api.Evaluation
import Fideslib.Api.InPlace
import Fideslib.Api.InPlaceContract
import Fideslib.BootCache.Cache
import Fideslib.BootCache.Contract
import Fideslib.BootCache.Groups
import Fideslib.BootCache.Reload
import Fideslib.BootCache.Settled
import Fideslib.CKKS.Addition
import Fideslib.CKKS.Aliased
import Fideslib.CKKS.AliasedContract
import Fideslib.CKKS.Alignment
import Fideslib.CKKS.ExtendedBasis
import Fideslib.CKKS.MutableForms
import Fideslib.CKKS.OperandAlignment
import Fideslib.CKKS.Operations
import Fideslib.CKKS.Plaintext
import Fideslib.CKKS.PlaintextAlignment
import Fideslib.CKKS.PlaintextContract
import Fideslib.CKKS.PlaintextObjects
import Fideslib.CKKS.RescaleFlag
import Fideslib.CKKS.RnsPoly
import Fideslib.Chebyshev.Correctness
import Fideslib.Chebyshev.PatersonStockmeyer
import Fideslib.Chebyshev.Powers
import Fideslib.Chebyshev.Splitting
import Fideslib.Chebyshev.Traversal
import Fideslib.DeviceMemory.Books
import Fideslib.DeviceMemory.Pool
import Fideslib.DeviceMemory.Requests
import Fideslib.DeviceMemory.Soundness
import Fideslib.DeviceMemory.Trim
import Fideslib.HostSharing.Calls
import Fideslib.HostSharing.Isolation
import Fideslib.HostSharing.ValueSemantics
import Fideslib.Kernels.Compression
import Fideslib.Kernels.Elementwise
import Fideslib.Kernels.Launches
import Fideslib.Kernels.ManyToOneContract
import Fideslib.Kernels.NarrowLimbs
import Fideslib.KeySnapshot.Contract
import Fideslib.KeySwitch.Automorphism
import Fideslib.KeySwitch.CapturedGraphs
import Fideslib.KeySwitch.Digits
import Fideslib.KeySwitch.DotKeySwitch
import Fideslib.KeySwitch.FastRotationContract
import Fideslib.KeySwitch.HoistedBatch
import Fideslib.KeySwitch.HoistedBatchContract
import Fideslib.KeySwitch.HoistedBatchLaw
import Fideslib.KeySwitch.HoistedContract
import Fideslib.KeySwitch.HoistedModDown
import Fideslib.KeySwitch.HostTables
import Fideslib.KeySwitch.ModDownContract
import Fideslib.KeySwitch.Monomial
import Fideslib.KeySwitch.Rescale
import Fideslib.KeySwitch.WeightedSum
import Fideslib.KeySwitch.WeightedSumContract
import Fideslib.KeySwitch.WeightedSums
import Fideslib.Library.ChebyshevSeries
import Fideslib.Library.DoublingLoops
import Fideslib.Library.KeyedMap
import Fideslib.Library.Lexicographic
import Fideslib.Library.Loop
import Fideslib.Library.PartialLists
import Fideslib.Library.PolynomialList
import Fideslib.Library.Run
import Fideslib.Library.SlotRotation
import Fideslib.Library.TextStreams
import Fideslib.Library.ThrowingCalls
import Fideslib.LinearTransform.BabyGiant
import Fideslib.LinearTransform.Convolution
import Fideslib.LinearTransform.ConvolutionContract
import Fideslib.LinearTransform.DotProduct
import Fideslib.LinearTransform.DotProductBlocks
import Fideslib.LinearTransform.DotProductCall
import Fideslib.LinearTransform.DotProductContract
import Fideslib.LinearTransform.DotProductKernel
import Fideslib.LinearTransform.DotProductLaunch
import Fideslib.LinearTransform.LevelOneTransform
import Fideslib.LinearTransform.PointerTable
import Fideslib.LinearTransform.Rotation
import Fideslib.LinearTransform.RotationFold
import Fideslib.LinearTransform.RotationFoldContract
import Fideslib.LinearTransform.SpecialTransform
import Fideslib.Modular.Words
import Fideslib.Offload.Alignment
import Fideslib.Offload.Contract
import Fideslib.Offload.Methods
import Fideslib.Offload.MutableForms
import Fideslib.OnePass.RoundTrip
import Fideslib.PowerBasis.Correctness
import Fideslib.PowerBasis.Evaluation
import Fideslib.PowerBasis.Fused
import Fideslib.PowerBasis.PatersonStockmeyer
import Fideslib.PowerBasis.Powers
import Fideslib.Registry.Context
import Fideslib.Registry.DigitTablesContract
import Fideslib.Registry.Ownership
import Fideslib.Registry.PlacementContract
import Fideslib.Registry.PlacementFailures
import Fideslib.Registry.Retirement
import Fideslib.Registry.Sharing
import Fideslib.Registry.State
import Fideslib.Residency.CacheContract
import Fideslib.Residency.CiphertextBooks
import Fideslib.Residency.CiphertextCalls
import Fideslib.Residency.Context
import Fideslib.Residency.PlaintextBooks
import Fideslib.Residency.PlaintextCalls
import Fideslib.RotationKeys.Accounting
import Fideslib.RotationKeys.Addressing
import Fideslib.RotationKeys.Cache
import Fideslib.RotationKeys.Eviction
import Fideslib.RotationKeys.Lru
import Fideslib.RotationKeys.Requests
import Fideslib.Serialization.Context
import Fideslib.Serialization.Contract
import Fideslib.Transfer.Ciphertexts
import Fideslib.Transfer.ExtendedRoundTrip
import Fideslib.Transfer.LevelContract
import Fideslib.Transfer.Levels
import Fideslib.Transfer.RoundTrip
import Fideslib.Transparency.CacheMoves
import Fideslib.Transparency.Evaluations
import Fideslib.Transparency.Machine
import Fideslib.Transparency.Operands
import Fideslib.Transparency.Reference
import Fideslib.Transparency.Refinement
import Fideslib.Transparency.Transparency
