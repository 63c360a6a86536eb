import Sword.Lib.Bytes
import Sword.Lib.Blocks
import Sword.Lib.Run
import Sword.Lib.Held
import Sword.Lib.Progression
import Sword.Lib.Tournament
import Sword.Lib.Probing
import Sword.Lib.Tombstones
import Sword.Lib.FirstSeen
import Sword.Lib.SkipErase
import Sword.Lib.Cursor
import Sword.Lib.Lz77
import Sword.Lib.Machine
import Sword.Lib.Text
import Sword.Rtl.Common
import Sword.Rtl.Thread
import Sword.Rtl.Minilzo
import Sword.Rtl.MinilzoReads
import Sword.Rtl.MinilzoWrites
import Sword.Rtl.MinilzoRoundTrip
import Sword.Rtl.HashSet
import Sword.Rtl.HashSetOps
import Sword.Rtl.HashSetRuns
import Sword.Rtl.DoubleBuffer
import Sword.Rtl.Filter
import Sword.Rtl.Metafile
import Sword.Rtl.Team
import Sword.Rtl.Nesting
import Sword.Rtl.Levels
import Sword.Tools.Loader
import Sword.Tools.RoundTrip
import Sword.Tools.MetafileText
import Sword.Tools.TraceFolder
import Sword.Tools.Lockset
import Sword.Tools.Dedup
import Sword.Tools.Regions
import Sword.Tools.Labels
import Sword.Tools.Rbtree
import Sword.Tools.Balance
import Sword.Tools.Nodes
import Sword.Tools.IntervalTree
import Sword.Tools.Footprint
import Sword.Tools.SolveMip
import Sword.Tools.Represents
import Sword.Tools.Overlap
import Sword.Tools.Calls
import Sword.Tools.SearchOrder
import Sword.Tools.Ends
import Sword.Tools.Augmented
import Sword.Tools.Positions
import Sword.Tools.Erase
import Sword.Tools.SubtreeLast
import Sword.Tools.IterNext
import Sword.Tools.InsertRemove
import Sword.Tools.Merging
import Sword.Tools.Pairing
import Sword.Tools.Analysis
import Sword.Tools.Links
import Sword.Tools.Report
import Sword.Transforms.Program
import Sword.Transforms.Choose
import Sword.Transforms.Instrument
import Sword.Transforms.Module
import Sword.Transforms.Clone
import Sword.Transforms.Preserve
