import Rustarmic.Jit.Budget
import Rustarmic.Jit.Dispatch
import Rustarmic.Backend.AllocSafety
import Rustarmic.Jit.Invalidation
import Rustarmic.Jit.LinkSafety
import Rustarmic.Frontend.Segments
import Rustarmic.Backend.ExclusiveProtocol
import Rustarmic.Optimizer.LinkedRun
import Rustarmic.Backend.MemAccess
import Rustarmic.Jit.FaultBarrier
import Rustarmic.Optimizer.MulFold
import Rustarmic.Jit.PatchWindows
import Rustarmic.Optimizer.AffineExact
import Rustarmic.Optimizer.DeadCode
import Rustarmic.Backend.Gfni
import Rustarmic.Jit.Publication
import Rustarmic.Backend.Saturating
import Rustarmic.Backend.Reciprocal
import Rustarmic.Backend.CryptoAes
import Rustarmic.Backend.CryptoSha256
import Rustarmic.Jit.HostAtomic
import Rustarmic.Frontend.AddSub
import Rustarmic.Frontend.Bitfield
import Rustarmic.Backend.VectorAlloc
import Rustarmic.Frontend.ShiftExact
import Rustarmic.Backend.TableLookup
import Rustarmic.Backend.TableNodes
import Rustarmic.Backend.VariableShift
import Rustarmic.Frontend.Table
import Rustarmic.Backend.FloatCode
import Rustarmic.Backend.FusedMulAdd
import Rustarmic.Backend.NewtonStep
import Rustarmic.Backend.RoundAway
import Rustarmic.Frontend.IntegerEmitter
import Rustarmic.Guest.DataProcessing
import Rustarmic.Backend.AtomicNodes
import Rustarmic.Backend.LeadingZeros
import Rustarmic.Frontend.LseAtomic
import Rustarmic.Interp.Sha
import Rustarmic.Frontend.BitMasks
import Rustarmic.Frontend.Conditional
import Rustarmic.Frontend.DataProcessing
import Rustarmic.Frontend.LoadPair
import Rustarmic.Backend.BitCode
import Rustarmic.Backend.IntegerNodes
import Rustarmic.Frontend.Branches
import Rustarmic.Frontend.Simulation
import Rustarmic.Frontend.Program
