import Xezim.Lib.Splice
import Xezim.Lib.KnownBits
import Xezim.Lib.KeyedLog
import Xezim.Lib.Buckets
import Xezim.Lib.Digits
import Xezim.Value
import Xezim.WordLaws
import Xezim.TwoState.Insn
import Xezim.TwoState.Store
import Xezim.TwoState.Exec
import Xezim.TwoState.ExecX
import Xezim.TwoState.StoreLaws
import Xezim.TwoState.QueueLaws
import Xezim.TwoState.Lowered
import Xezim.TwoState.ReplicateLaws
import Xezim.TwoState.LoweredLaws
import Xezim.Reference
import Xezim.TwoState.KnownLaws
import Xezim.TwoState.StepAgreement
import Xezim.TwoState.Agreement
import Xezim.TwoState.PlaneCovers
import Xezim.TwoState.StepAbstraction
import Xezim.TwoState.Abstraction
import Xezim.Lib.Lockstep
import Xezim.TwoState.Machine
import Xezim.TwoState.Fusion
import Xezim.TwoState.FusionLaws
import Xezim.TwoState.FusionLayout
import Xezim.TwoState.FusionRun
import Xezim.TwoState.ReadMasks
import Xezim.TwoState.ReadMaskLaws
import Xezim.TwoState.ReadMaskRun
import Xezim.Vm.Ops
import Xezim.Vm.Nba
import Xezim.Vm.NbaLaws
import Xezim.Vm.NbaOps
import Xezim.Vm.NbaSteps
import Xezim.Vm.Reference
import Xezim.Vm.LastWrite
import Xezim.Vm.Blocking
import Xezim.Vm.Writes
import Xezim.Vm.Kept
import Xezim.Vm.TsKept
import Xezim.Vm.Force
import Xezim.Wheel.TimingWheel
import Xezim.Wheel.Slots
import Xezim.Wheel.Layout
import Xezim.Wheel.Steps
import Xezim.Wheel.Refinement
import Xezim.Wheel.Removal
import Xezim.Wheel.Marks
import Xezim.Wheel.Fronts
import Xezim.Udp.Table
import Xezim.Udp.Eval
import Xezim.Udp.TableLaws
import Xezim.Udp.Agreement
import Xezim.Udp.Runs
import Xezim.Csp.Dom
import Xezim.Csp.DomLaws
import Xezim.Csp.Problem
import Xezim.Csp.State
import Xezim.Csp.Enforce
import Xezim.Csp.Find
import Xezim.Csp.Meaning
import Xezim.Csp.StateLaws
import Xezim.Csp.StatusLaws
import Xezim.Csp.NarrowLaws
import Xezim.Csp.WrapLaws
import Xezim.Csp.LinearLaws
import Xezim.Csp.SetLaws
import Xezim.Csp.CountLaws
import Xezim.Csp.EvalLaws
import Xezim.Csp.EnforceLaws
import Xezim.Csp.Propagate
import Xezim.Csp.PickLaws
import Xezim.Csp.SearchLaws
import Xezim.Csp.Soundness
import Xezim.Csp.Preferences
import Xezim.Csp.PreferenceLaws
import Xezim.Csp.Greedy
import Xezim.Csp.WrapExact
import Xezim.Csp.WrapOverflow
import Xezim.Lib.BitRuns
import Xezim.Csp.Operand
import Xezim.Csp.OperandLaws
import Xezim.Csp.ShiftRel
import Xezim.Csp.MaskedEq
import Xezim.Csp.Context
import Xezim.Csp.FunNode
import Xezim.Arrays.Operand
import Xezim.Arrays.Arms
import Xezim.Arrays.Lowering
import Xezim.Arrays.ArmLaws
import Xezim.Arrays.IndexLaws
import Xezim.Arrays.CodeLaws
import Xezim.Arrays.Addressing
import Xezim.AnnexN
import Xezim.Sva.Until
import Xezim.Sva.UntilLaws
import Xezim.Lib.Reachability
import Xezim.Heap.SlotBits
import Xezim.Heap.Collect
import Xezim.Heap.CollectLaws
import Xezim.Waiters.Drain
import Xezim.Waiters.DrainLaws
import Xezim.Lib.Postings
import Xezim.Waiters.InstanceEvents
import Xezim.Waiters.InstanceEventLaws
import Xezim.Comb.Item
import Xezim.Comb.Gate
import Xezim.Comb.Isolated
import Xezim.Comb.Reference
import Xezim.Comb.IsolatedLaws
import Xezim.Comb.Commit
import Xezim.Comb.CommitLaws
import Xezim.Comb.Scatter
import Xezim.Comb.CommitFrame
import Xezim.Comb.ScatterLaws
import Xezim.Comb.Delayed
import Xezim.Comb.DelayedLaws
import Xezim.Lib.FourState
import Xezim.Comb.Recognition
import Xezim.Comb.RecognitionLaws
import Xezim.Edges.Groups
import Xezim.Edges.GroupLaws
import Xezim.Edges.Dedup
import Xezim.Soa.Packed
import Xezim.Soa.Store
import Xezim.Soa.Signals
import Xezim.Soa.StoreLaws
import Xezim.Soa.Writes
import Xezim.Soa.Runs
import Xezim.Lib.Checked
import Xezim.EventBits.Fold
import Xezim.EventBits.Reference
import Xezim.EventBits.Sound
import Xezim.EventBits.Labels
import Xezim.EventBits.Widths
import Xezim.EventBits.Positions
import Xezim.EventBits.FoldLaws
import Xezim.Settle.InjectBits
import Xezim.Settle.Worklist
import Xezim.Settle.WorklistLaws
import Xezim.Settle.Sweeps
import Xezim.Settle.Runs
import Xezim.Mailbox.HandOver
import Xezim.Mailbox.HandOverLaws
import Xezim.Csp.DomWords
import Xezim.Csp.DomsKept
import Xezim.Lib.Traced
import Xezim.Lib.Footprint
import Xezim.Bytecode.Insn
import Xezim.Bytecode.Metadata
import Xezim.Bytecode.Machine
import Xezim.Bytecode.Exec
import Xezim.Bytecode.Persist
import Xezim.Bytecode.Traffic
import Xezim.Bytecode.TrafficLaws
import Xezim.Bytecode.Liveness
import Xezim.Bytecode.Footprints
import Xezim.Bytecode.Blocks
import Xezim.Lib.Tally
import Xezim.Bytecode.Peephole
import Xezim.Bytecode.CompactNops
import Xezim.Bytecode.FuseAdds
import Xezim.Bytecode.DeadRegs
import Xezim.Bytecode.FuseConst
import Xezim.Bytecode.Copies
import Xezim.Bytecode.Facts
import Xezim.Bytecode.CopyForward
import Xezim.Bytecode.FuseCompare
import Xezim.Lib.PackedLayout
import Xezim.Sensitivity.Selection
import Xezim.Sensitivity.Denotation
import Xezim.Sensitivity.DenotationLaws
import Xezim.Sensitivity.SelectionExact
import Xezim.Lib.TimedSlab
import Xezim.Sleep.Tables
import Xezim.Sleep.Runs
import Xezim.Sleep.Records
import Xezim.Sleep.Waking
import Xezim.Sleep.Evaluations
import Xezim.Sleep.Bookkeeping
