import LoonFs.Changes.FeedTree
import LoonFs.Format.SegmentDecoding
import LoonFs.Merge.Session
import LoonFs.Maintenance.Claims
import LoonFs.Reference.Refinement
import LoonFs.Wal.Activity
import LoonFs.Diff.Complete
import LoonFs.Metadata.SeparateRuns
import LoonFs.Grep.FeedIndexing
import LoonFs.Grep.RunShapes
import LoonFs.Metadata.ListingPages
import LoonFs.Segment.CombinedPages
import LoonFs.Upload.EndsOnce
import LoonFs.Compaction.Progress
import LoonFs.Manifest.Succession
import LoonFs.Metadata.GrantedRights
import LoonFs.Metadata.IndexLookups
import LoonFs.History.GapFree
import LoonFs.Compaction.MergeRuns
import LoonFs.Grep.GramPostings
import LoonFs.Types.CivilDate
import LoonFs.Types.GeneratedIds
import LoonFs.Types.Pager
