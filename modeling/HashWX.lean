import HashWX.Siphash.Spec
import HashWX.Siphash.Injective
import HashWX.Program.Spec
import HashWX.Program.Fairness
import HashWX.Exec.Spec
import HashWX.Exec.Nonce
import HashWX.Exec.Branching
import HashWX.Exec.Healing
import HashWX.Native.CodeSize
import HashWX.Native.CallingConvention
import HashWX.Context.Protection
import HashWX.Context.History
import HashWX.Context.Concurrent
import HashWX.Context.Conformance
import HashWX.Bench.Correct
import HashWX.Js.Correct
import HashWX.Exec.Finalization
import HashWX.Exec.LoopRate
import HashWX.Siphash.Period
import HashWX.Context.Lifetime
import HashWX.Wasm.Correct
