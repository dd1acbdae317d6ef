import LibHL.Support.Heap
import LibHL.Support.Linked
import LibHL.Support.Run
import LibHL.Support.HeapCells
import LibHL.Support.ChainCells
import LibHL.Support.PointerTree
import LibHL.Support.TreePlaces
import LibHL.Support.LevelOrder
import LibHL.Support.Loop
import LibHL.Support.Holdings
import LibHL.Support.KeyForest
import LibHL.LinkedList.Model
import LibHL.LinkedList.Invariant
import LibHL.LinkedList.Operations
import LibHL.LinkedList.Refinement
import LibHL.LinkedList.BadPositions
import LibHL.LinkedList.Slices
import LibHL.LinkedList.TaggedValues
import LibHL.LinkedList.SortModel
import LibHL.LinkedList.Arranged
import LibHL.LinkedList.Partition
import LibHL.LinkedList.Sort
import LibHL.LinkedList.Foreach
import LibHL.LinkedList.WholeSlice
import LibHL.LinkedList.Owners
import LibHL.LinkedList.FailedInsertions
import LibHL.HashTable.Invariant
import LibHL.HashTable.Growth
import LibHL.HashTable.Operations
import LibHL.HashTable.Iteration
import LibHL.HashTable.Runs
import LibHL.HashTable.KeyUniqueness
import LibHL.HashTable.MapRefinement
import LibHL.HashTable.SharedModel
import LibHL.HashTable.Status
import LibHL.HashTable.Ownership
import LibHL.HashTable.FailedSets
import LibHL.Graph.Connections
import LibHL.Graph.Choosing
import LibHL.RQueue.Model
import LibHL.RQueue.Invariant
import LibHL.RQueue.Refinement
import LibHL.RQueue.SharedModel
import LibHL.RQueue.SharedRing
import LibHL.RQueue.SharedReader
import LibHL.RQueue.SharedWriter
import LibHL.RQueue.ReaderWriter
import LibHL.Queue.Model
import LibHL.Queue.View
import LibHL.Queue.Steps
import LibHL.Queue.Deque
import LibHL.Queue.Refinement
import LibHL.Queue.Interference
import LibHL.Queue.ConcurrentPops
import LibHL.Queue.Lifetimes
import LibHL.RefCnt.Operations
import LibHL.RefCnt.Sessions
import LibHL.RefCnt.Invariant
import LibHL.RefCnt.Accounting
import LibHL.RefCnt.DerefRelease
import LibHL.RefCnt.CompareAndSwap
import LibHL.RefCnt.SharedSafety
import LibHL.BinHeap.Model
import LibHL.BinHeap.Invariant
import LibHL.BinHeap.Operations
import LibHL.BinHeap.Refinement
import LibHL.BinHeap.Shape
import LibHL.BinHeap.MergeModel
import LibHL.BinHeap.Merge
import LibHL.BinHeap.MergedHeap
import LibHL.BinHeap.SinglePath
import LibHL.BinHeap.KeyTrees
import LibHL.BinHeap.ChangeKey
import LibHL.BinHeap.Walk
import LibHL.BinHeap.Reachable
import LibHL.BinHeap.StoppedWalk
import LibHL.BinHeap.DefaultIncrements
import LibHL.PQueue.Model
import LibHL.PQueue.Refinement
import LibHL.PQueue.Removal
import LibHL.PQueue.Lifetimes
import LibHL.SkipList.Model
import LibHL.SkipList.Invariant
import LibHL.SkipList.Operations
import LibHL.SkipList.Refinement
import LibHL.SkipList.Layers
import LibHL.SkipList.SortedLayers
import LibHL.SkipList.Lifetimes
import LibHL.Comparators.IntegerKeys
import LibHL.Comparators.DefaultKeys
import LibHL.RbTree.Model
import LibHL.RbTree.Invariant
import LibHL.RbTree.Search
import LibHL.RbTree.Repair
import LibHL.RbTree.Removing
import LibHL.RbTree.TwoChildren
import LibHL.RbTree.FailedAdditions
import LibHL.RbTree.ValidRemovals
import LibHL.RbTree.Runs
import LibHL.RbTree.Walk
import LibHL.RbTree.WalkSteps
import LibHL.RbTree.WalkStops
import LibHL.RbTree.WalkCounts
import LibHL.RbTree.WalkDeletes
import LibHL.RbTree.Lifetimes
import LibHL.AvlTree.Model
import LibHL.AvlTree.Invariant
import LibHL.AvlTree.Balance
import LibHL.AvlTree.Adding
import LibHL.AvlTree.Removing
import LibHL.AvlTree.Runs
import LibHL.AvlTree.Order
import LibHL.AvlTree.RemovedKey
import LibHL.AvlTree.Walk
import LibHL.AvlTree.WalkStops
import LibHL.AvlTree.WalkVisits
import LibHL.AvlTree.FirstStop
import LibHL.AvlTree.MapRuns
import LibHL.AvlTree.Lifetimes
import LibHL.Trie.Model
import LibHL.Trie.Invariant
import LibHL.Trie.Operations
import LibHL.Trie.MapRefinement
import LibHL.Trie.Destroy
import LibHL.Trie.Removal
import LibHL.Trie.Ownership
import LibHL.Trie.Counters
import LibHL.Trie.ByteKeys
import LibHL.Trie.CharIndex
import LibHL.RBuf.Model
import LibHL.RBuf.Refinement
import LibHL.RBuf.Reachable
import LibHL.RBuf.ReadUntil
import LibHL.RBuf.Find
import LibHL.RBuf.Move
import LibHL.RBuf.Copy
import LibHL.FBuf.Model
import LibHL.FBuf.Layout
import LibHL.FBuf.Operations
import LibHL.FBuf.Refinement
import LibHL.FBuf.Extending
import LibHL.FBuf.Growing
import LibHL.FBuf.Shrinking
import LibHL.FBuf.Reachable
import LibHL.FBuf.Capacity
import LibHL.FBuf.Limits
import LibHL.FBuf.Attaching
import LibHL.FBuf.Prepending
import LibHL.FBuf.Printing
import LibHL.FBuf.ReadLine
import LibHL.FBuf.StreamEnd
import LibHL.FBuf.ShortStorage
import LibHL.FBuf.AddingLine
import LibHL.FBuf.WithoutStorage
import LibHL.FullWalks
