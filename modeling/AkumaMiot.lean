import AkumaMiot.Agent.EventCursor
import AkumaMiot.Litter.Accounts
import AkumaMiot.Litter.Beside
import AkumaMiot.Litter.Votes
import AkumaMiot.Mesh.Pushing
import AkumaMiot.Mesh.Stable
import AkumaMiot.Node.Intake
import AkumaMiot.Node.OffRecord
import AkumaMiot.Store.Invariant
import AkumaMiot.Store.Fork
import AkumaMiot.Tasks.Lifecycle
import AkumaMiot.Tasks.Again
import AkumaMiot.Tasks.Late
import AkumaMiot.Tasks.Limits
import AkumaMiot.Tasks.Nags
import AkumaMiot.Tasks.Progress
import AkumaMiot.Node.Ballots
import AkumaMiot.Node.Body
import AkumaMiot.Node.Evictions
import AkumaMiot.Node.Patrons
import AkumaMiot.Node.Protected
import AkumaMiot.Node.Waiting
import AkumaMiot.Agent.Budgets
import AkumaMiot.Agent.Counts
import AkumaMiot.Agent.Feeding
import AkumaMiot.Agent.Nudges
import AkumaMiot.Agent.Sessions
import AkumaMiot.Agent.Watching
import AkumaMiot.Node.Undiverged
import AkumaMiot.Client.LogTree
import AkumaMiot.Primitives.Ids
import AkumaMiot.Keys
import AkumaMiot.Keys.Ssh
import AkumaMiot.Agent.Edits
import AkumaMiot.Agent.Inspecting
import AkumaMiot.Agent.Live
import AkumaMiot.Agent.LocalTasks
import AkumaMiot.Llm.Messages
import AkumaMiot.Public.App
import AkumaMiot.Lib.Recent
import AkumaMiot.Node.Works
import AkumaMiot.Node.Feed
import AkumaMiot.Node.Ledger
import AkumaMiot.Node.Replicas
import AkumaMiot.Node.Mirrors
import AkumaMiot.Node.Genesis
import AkumaMiot.Node.Access
import AkumaMiot.Node.Forwards
import AkumaMiot.Agent.History
import AkumaMiot.Agent.Lives
import AkumaMiot.Client.Wrap
