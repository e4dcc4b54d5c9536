import BillionRows.Basic
import BillionRows.Stat
import BillionRows.Scan
import BillionRows.Format
import BillionRows.Merge
import BillionRows.Intern
import BillionRows.ParseChunkIDs
import BillionRows.Unparsable
import BillionRows.Partition
import BillionRows.Workers
import BillionRows.WorkersRace
import BillionRows.InternRace
import BillionRows.InternRaceInv
import BillionRows.Overlap
import BillionRows.FloatStats
import BillionRows.ShardFiles
import BillionRows.GoCopilot
import BillionRows.Channels
import BillionRows.ChannelsProgress
import BillionRows.OverlapWindows
import BillionRows.OverlapCounts
import BillionRows.StatInv
import BillionRows.PipelineRefine
import BillionRows.OverlapRead
import BillionRows.ShardGoroutines
