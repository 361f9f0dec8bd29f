import Nivren.Loops
import Nivren.Invisible
import Nivren.Executors
import Nivren.TaskJoin
import Nivren.BundleCanonical
import Nivren.BundleCompiled
import Nivren.AssignableExact
import Nivren.IntentPipelines
import Nivren.OnlyWithin
import Nivren.Registry.Agreement
import Nivren.Registry.Rollback
import Nivren.EffectReplay
import Nivren.WebSocketFrames
import Nivren.DatabaseScope
import Nivren.FileScope
import Nivren.Registry.Public
import Nivren.Registry.History
import Nivren.Registry.RoundTrip
import Nivren.HttpChunks
import Nivren.PlanTypes
import Nivren.Registry.Fingerprint
import Nivren.TextHoles
import Nivren.Expand
import Nivren.Ranges
import Nivren.Exact
import Nivren.IntVerify
import Nivren.Standalone
import Nivren.DatabaseHost
import Nivren.Packages.Redis
import Nivren.Packages.Sql
