import ValyriaApp.Lib.Machine
import ValyriaApp.Lib.NumberedLog
import ValyriaApp.Lib.OrderedMap
import ValyriaApp.Protocol.Registry
import ValyriaApp.Extension.Store
import ValyriaApp.Bridge.EventPump
import ValyriaApp.Host.Supervise
import ValyriaApp.Bridge.Session
import ValyriaApp.Bridge.Supervisor
import ValyriaApp.Bridge.OneDaemon
import ValyriaApp.Bridge.Autonomy
import ValyriaApp.Host.Restart
import ValyriaApp.Extension.Reopen
import ValyriaApp.State.Selectors
import ValyriaApp.Extension.Approval
import ValyriaApp.Host.About
import ValyriaApp.Lib.Incremental
import ValyriaApp.Lib.Utf8
import ValyriaApp.Rpc.Frame
import ValyriaApp.Rpc.Client
import ValyriaApp.Extension.BridgeHost
import ValyriaApp.Host.Sessions
import ValyriaApp.Host.Ownership
import ValyriaApp.Bridge.ConfigWriter
import ValyriaApp.Protocol.Text
import ValyriaApp.State.Activity
import ValyriaApp.Extension.Views
import ValyriaApp.Extension.Narrative
import ValyriaApp.Extension.TaskScope
import ValyriaApp.Extension.EditorPanels
import ValyriaApp.State.Delivery
import ValyriaApp.State.Invariant
import ValyriaApp.State.Summaries
import ValyriaApp.State.Pairing
import ValyriaApp.Extension.ViewSafety
import ValyriaApp.Rpc.Chunking
import ValyriaApp.Bridge.Workspace
import ValyriaApp.Extension.Connection
import ValyriaApp.State.Rendered
import ValyriaApp.Bridge.GitStatus
import ValyriaApp.Bridge.Settings
import ValyriaApp.State.History
import ValyriaApp.Extension.Dispatch
import ValyriaApp.Lib.Keyed
import ValyriaApp.State.Projections
import ValyriaApp.Extension.Badges
import ValyriaApp.Extension.ModelList
import ValyriaApp.Extension.Notify
import ValyriaApp.Bridge.Holes
import ValyriaApp.Lib.FileTree
import ValyriaApp.Bridge.WorkspaceFs
import ValyriaApp.Bridge.Listing
import ValyriaApp.Lib.BreadthFirst
import ValyriaApp.Bridge.Search
import ValyriaApp.Bridge.CoreClient
import ValyriaApp.Lib.ExceptState
import ValyriaApp.Host.Dispatch
import ValyriaApp.Host.Requests
import ValyriaApp.Host.Channel
import ValyriaApp.Host.EventStream
import ValyriaApp.Host.Notices
import ValyriaApp.Lib.Split
import ValyriaApp.Lib.Mirror
import ValyriaApp.Bridge.GitLog
import ValyriaApp.Extension.CustomDoc
import ValyriaApp.Extension.ModelChat
import ValyriaApp.Extension.Window
import ValyriaApp.Extension.Layout
import ValyriaApp.Bridge.Watcher
import ValyriaApp.Extension.Announcements
import ValyriaApp.Extension.ModelManager
import ValyriaApp.Host.Calls
