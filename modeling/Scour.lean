import Scour.Removal
import Scour.Table
import Scour.Unique
import Scour.PathTerm
import Scour.UsageExact
import Scour.Shutdown
import Scour.ApplyRules
import Scour.Negation
import Scour.Alternation
import Scour.Conditions
import Scour.Wildcard
import Scour.Reach
import Scour.Opened
import Scour.Disks
import Scour.SavedRules
import Scour.Swaps
import Scour.DirStory
import Scour.FanWatchRun
import Scour.WalksDue
import Scour.Wakes
import Scour.Ladder
import Scour.DirLookup
import Scour.SizesRun
import Scour.KillSpare
import Scour.WalkExact
import Scour.FolderKeys
import Scour.StoredOrders
import Scour.Glob
import Scour.Facets
import Scour.PrefixRuns
import Scour.SourceIds
import Scour.FanEvents
import Scour.Pulses
import Scour.Dates
import Scour.Usable
import Scour.ViewMerge
import Scour.Png
import Scour.Hotkey
import Scour.Export
import Scour.PageCache
import Scour.RuleFolds
import Scour.DupesReport
import Scour.TrashRuns
import Scour.Shares
import Scour.ColumnsRead
import Scour.OrdersSorted
import Scour.MatchSplit
import Scour.Pressed
import Scour.Session
import Scour.FoldBuffer
import Scour.NameArena
import Scour.Revisit
import Scour.Compact
import Scour.WidthsFill
import Scour.Merged
import Scour.OrderFiles
import Scour.BruteForce
import Scour.RowRead
import Scour.Alike
import Scour.SegmentRule
import Scour.Filed
import Scour.FiledSteps
import Scour.FiledBuilds
import Scour.FiledFolds
import Scour.Restart
import Scour.Durable
import Scour.Served
import Scour.Onward
import Scour.Callers
import Scour.Together
import Scour.Crowds
