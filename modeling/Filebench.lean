import Filebench.AutoComp.AttrList
import Filebench.AutoComp.Loadfiles
import Filebench.Avl.Apart
import Filebench.Avl.Change
import Filebench.Avl.Destroy
import Filebench.Avl.Empty
import Filebench.Avl.Holds
import Filebench.Avl.Rebalance
import Filebench.Avl.Represent
import Filebench.Avl.Search
import Filebench.Avl.Steady
import Filebench.Avl.Swap
import Filebench.Avl.Tree
import Filebench.Avl.Update
import Filebench.Eventgen.Conserve
import Filebench.Eventgen.Credit
import Filebench.Eventgen.Depth
import Filebench.Eventgen.Limit
import Filebench.Eventgen.Queue
import Filebench.Eventgen.Rate
import Filebench.Fileset.Alloc
import Filebench.Fileset.Createset
import Filebench.Fileset.Delete
import Filebench.Fileset.Invariant
import Filebench.Fileset.Mkdir
import Filebench.Fileset.Paths
import Filebench.Fileset.Pick
import Filebench.Fileset.PickOrder
import Filebench.Fileset.PickSpec
import Filebench.Fileset.Populate
import Filebench.Fileset.PopulateSpec
import Filebench.Fileset.PopulateTotal
import Filebench.Fileset.Prealloc
import Filebench.Fileset.Reset
import Filebench.Fileset.ResetSpec
import Filebench.Fileset.Resolve
import Filebench.Fileset.Run
import Filebench.Fileset.TreeOps
import Filebench.Fileset.Types
import Filebench.Flowop.Abort
import Filebench.Flowop.Aiowait
import Filebench.Flowop.Build
import Filebench.Flowop.Busy
import Filebench.Flowop.Composite
import Filebench.Flowop.Create
import Filebench.Flowop.DeleteAll
import Filebench.Flowop.Destruct
import Filebench.Flowop.Fdnum
import Filebench.Flowop.Forest
import Filebench.Flowop.Holdings
import Filebench.Flowop.Idle
import Filebench.Flowop.InnerDefine
import Filebench.Flowop.InnerForest
import Filebench.Flowop.Iobuf
import Filebench.Flowop.Library
import Filebench.Flowop.Machine
import Filebench.Flowop.MainLoop
import Filebench.Flowop.OpenFail
import Filebench.Flowop.PickIndex
import Filebench.Flowop.Release
import Filebench.Flowop.Rotation
import Filebench.Flowop.Runtime
import Filebench.Flowop.SemAccount
import Filebench.Flowop.SemOwners
import Filebench.Flowop.Semblock
import Filebench.Flowop.Slots
import Filebench.Flowop.Solo
import Filebench.Flowop.Targets
import Filebench.Flowop.Unlink
import Filebench.Flowop.Wakeup
import Filebench.Flowop.WriteWhole
import Filebench.Ipc.ClientClose
import Filebench.Ipc.ClientSync
import Filebench.Ipc.Exhaustion
import Filebench.Ipc.Free
import Filebench.Ipc.Ism
import Filebench.Ipc.Memory
import Filebench.Ipc.Pool
import Filebench.Ipc.Readback
import Filebench.Ipc.Strings
import Filebench.Lib.AtMost
import Filebench.Lib.BinTree
import Filebench.Lib.Bump
import Filebench.Lib.CString
import Filebench.Lib.Chars
import Filebench.Lib.Circular
import Filebench.Lib.Critical
import Filebench.Lib.DirTree
import Filebench.Lib.Double
import Filebench.Lib.Fueled
import Filebench.Lib.Leak
import Filebench.Lib.Linked
import Filebench.Lib.Masks
import Filebench.Lib.Owners
import Filebench.Lib.Pieces
import Filebench.Lib.Postorder
import Filebench.Lib.Program
import Filebench.Lib.Redirect
import Filebench.Lib.Returns
import Filebench.Lib.Scan
import Filebench.Lib.Semset
import Filebench.Lib.Staged
import Filebench.Lib.Stretch
import Filebench.Lib.Subtree
import Filebench.Lib.Trace
import Filebench.Lib.Wrap
import Filebench.Parser.Foreach
import Filebench.Parser.Load
import Filebench.Parser.Run
import Filebench.Parser.SetChain
import Filebench.Parser.Strings
import Filebench.Procflow.Barrier
import Filebench.Procflow.Grace
import Filebench.Procflow.Instances
import Filebench.Procflow.Locks
import Filebench.Procflow.Restore
import Filebench.Procflow.Session
import Filebench.Procflow.Starts
import Filebench.Procflow.Teardown
import Filebench.Procflow.Threads
import Filebench.Procflow.Types
import Filebench.Procflow.Utid
import Filebench.Procflow.Work
import Filebench.Random.Expected
import Filebench.Random.Randomno
import Filebench.Random.Scaled
import Filebench.Random.Segments
import Filebench.Random.Table
import Filebench.Stats.Endop
import Filebench.Stats.Finish
import Filebench.Stats.Overhead
import Filebench.Stats.Snap
import Filebench.Stats.Types
import Filebench.Vars.Acyclic
import Filebench.Vars.Assign
import Filebench.Vars.Binding
import Filebench.Vars.Composite
import Filebench.Vars.Copy
import Filebench.Vars.Effect
import Filebench.Vars.Eval
import Filebench.Vars.Local
import Filebench.Vars.Operation
import Filebench.Vars.Passing
import Filebench.Vars.Types
