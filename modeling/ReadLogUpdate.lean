import ReadLogUpdate.System
import ReadLogUpdate.Chain
import ReadLogUpdate.Listing
import ReadLogUpdate.Splice
import ReadLogUpdate.VersionClock
import ReadLogUpdate.Atomic
import ReadLogUpdate.Memory
import ReadLogUpdate.Rlu.Types
import ReadLogUpdate.Rlu.Step
import ReadLogUpdate.Rlu.Control
import ReadLogUpdate.Rlu.Flow
import ReadLogUpdate.Rlu.LogStep
import ReadLogUpdate.Rlu.Ownership
import ReadLogUpdate.Rlu.Section
import ReadLogUpdate.Rlu.Grace
import ReadLogUpdate.Rlu.Reading
import ReadLogUpdate.Rlu.Shortcuts
import ReadLogUpdate.Rlu.Snapshot
import ReadLogUpdate.Rlu.Isolation
import ReadLogUpdate.Rlu.Frees
import ReadLogUpdate.Rlu.Alone
import ReadLogUpdate.Rlu.Abort
import ReadLogUpdate.Rlu.Ring
import ReadLogUpdate.Rlu.Quiescence
import ReadLogUpdate.Rlu.Buffer
import ReadLogUpdate.Rlu.Decode
import ReadLogUpdate.Rlu.Solo
import ReadLogUpdate.Rlu.Overflow
import ReadLogUpdate.Rlu.Owners
import ReadLogUpdate.Rlu.WriterLocks
import ReadLogUpdate.Rlu.Drain
import ReadLogUpdate.Rlu.Request
import ReadLogUpdate.Rlu.Lending
import ReadLogUpdate.Rlu.LifeCycle
import ReadLogUpdate.Rlu.Overrun
import ReadLogUpdate.Rlu.Spill
import ReadLogUpdate.Rlu.Conflict
import ReadLogUpdate.Rlu.Unpublished
import ReadLogUpdate.Rlu.Names
import ReadLogUpdate.Harris.Step
import ReadLogUpdate.Harris.Shape
import ReadLogUpdate.Harris.Knowledge
import ReadLogUpdate.Harris.Linearize
import ReadLogUpdate.Harris.Hazard
import ReadLogUpdate.Harris.Search
import ReadLogUpdate.Hp.Step
import ReadLogUpdate.Hp.Coverage
import ReadLogUpdate.Rcu.Step
import ReadLogUpdate.Rcu.Shape
import ReadLogUpdate.Rcu.Safety
import ReadLogUpdate.Sequential.Calls
import ReadLogUpdate.Sequential.Locked
import ReadLogUpdate.Sequential.LockFree
import ReadLogUpdate.Sequential.HpHarris
import ReadLogUpdate.Sequential.Agreement
import ReadLogUpdate.Sequential.Deferral
import ReadLogUpdate.Sequential.Pending
import ReadLogUpdate.Sequential.Sync
import ReadLogUpdate.Sequential.Copies
import ReadLogUpdate.Sequential.Attempt
import ReadLogUpdate.Sequential.Change
import ReadLogUpdate.Sequential.Deferred
import ReadLogUpdate.Sequential.Hash
import ReadLogUpdate.Harris.Cleanup
import ReadLogUpdate.Harris.Accounting
import ReadLogUpdate.Harris.History
import ReadLogUpdate.RluList.Machine
import ReadLogUpdate.RluList.Chains
import ReadLogUpdate.RluList.Reads
import ReadLogUpdate.RluList.Knows
import ReadLogUpdate.RluList.Calls
import ReadLogUpdate.RluList.Commits
import ReadLogUpdate.RluList.Invariant
import ReadLogUpdate.RluList.Newest
import ReadLogUpdate.RluList.Tally
import ReadLogUpdate.RluList.Stores
import ReadLogUpdate.RluList.Results
