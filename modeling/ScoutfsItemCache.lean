import ScoutfsItemCache.Key
import ScoutfsItemCache.Tree
import ScoutfsItemCache.Item
import ScoutfsItemCache.Range
import ScoutfsItemCache.Api
import ScoutfsItemCache.Shrink
import ScoutfsItemCache.System
import ScoutfsItemCache.Abstract
import ScoutfsItemCache.Refine
import ScoutfsItemCache.Augment
import ScoutfsItemCache.Ranges
import ScoutfsItemCache.Invariant
import ScoutfsItemCache.Preserve
import ScoutfsItemCache.Shrinker
import ScoutfsItemCache.Steps
import ScoutfsItemCache.Runs
import ScoutfsItemCache.KeyView
import ScoutfsItemCache.RoundTrip
import ScoutfsItemCache.Effects
import ScoutfsItemCache.Shrinking
import ScoutfsItemCache.Tombstones
import ScoutfsItemCache.Store
import ScoutfsItemCache.Insertion
import ScoutfsItemCache.Buffers
import ScoutfsItemCache.Reads
import ScoutfsItemCache.Scan
import ScoutfsItemCache.Content
import ScoutfsItemCache.Bits
import ScoutfsItemCache.Flush
import ScoutfsItemCache.Queries
import ScoutfsItemCache.Invalidation
