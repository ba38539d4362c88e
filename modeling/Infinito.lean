import Infinito.Lib.Lists
import Infinito.Lib.Run
import Infinito.Lib.Register
import Infinito.Lib.Blot
import Infinito.Lib.Regex
import Infinito.Lib.FinMap
import Infinito.Lib.Result
import Infinito.Lib.Effect
import Infinito.Lib.Threads
import Infinito.Lib.Tree
import Infinito.Lib.Edits
import Infinito.Lib.Worklist
import Infinito.Py.Text
import Infinito.Py.Utf8
import Infinito.Workspace.Path
import Infinito.Workspace.Disk
import Infinito.Workspace.Resolve
import Infinito.Workspace.Files
import Infinito.Workspace.Confined
import Infinito.Workspace.Imports
import Infinito.Workspace.Exports
import Infinito.Workspace.Sound
import Infinito.Workspace.Roundtrip
import Infinito.Workspace.Merging
import Infinito.Workspace.RoleFields
import Infinito.Workspace.HostVars
import Infinito.History.Secrets
import Infinito.History.Git
import Infinito.History.Commit
import Infinito.History.Operations
import Infinito.History.Frames
import Infinito.History.Clean
import Infinito.History.Restored
import Infinito.History.Interleaved
import Infinito.History.Mutations
import Infinito.History.Recorded
import Infinito.History.Steps
import Infinito.History.Serial
import Infinito.History.Document
import Infinito.History.Detection
import Infinito.Jobs.Mask
import Infinito.Jobs.Stream
import Infinito.Jobs.Delivery
import Infinito.Rbac.Members
import Infinito.Rbac.Invariant
import Infinito.Rbac.Concurrent
import Infinito.Rbac.Routes
import Infinito.Rbac.Names
import Infinito.Rbac.Unique
import Infinito.Py.Value
import Infinito.Py.Yaml
import Infinito.Pricing.Schema
import Infinito.Pricing.Quote
import Infinito.Pricing.Accounts
import Infinito.Pricing.Accepted
import Infinito.Pricing.Defaults
import Infinito.Pricing.Idempotent
import Infinito.Pricing.Tiers
import Infinito.Pricing.Quotable
import Infinito.Pricing.Reference
import Infinito.Pricing.Monotone
import Infinito.Pricing.Special
import Infinito.Runner.Docker
import Infinito.Runner.Job
import Infinito.Runner.Start
import Infinito.Runner.Release
import Infinito.Runner.Finished
import Infinito.Runner.Sweep
import Infinito.Runner.Submit
import Infinito.Runner.Command
import Infinito.Runner.Mounts
import Infinito.Lib.Flags
import Infinito.Runner.Hardened
import Infinito.Orders.Users
import Infinito.Orders.Customers
import Infinito.Panel.Inventory
import Infinito.Panel.Selection
import Infinito.Panel.Sync
import Infinito.Panel.Orphans
import Infinito.Lib.Trim
import Infinito.Panel.VaultBlock
import Infinito.Panel.Users
import Infinito.Panel.Csv
import Infinito.Panel.UsersCsv
import Infinito.Panel.UserForm
import Infinito.Servers.Connections
import Infinito.Servers.Independent
import Infinito.Servers.Regenerated
import Infinito.Servers.RoleGroups
import Infinito.RateLimits.Windows
import Infinito.RateLimits.Deployments
import Infinito.Jobs.Chunks
import Infinito.Jobs.Frames
import Infinito.Jobs.Hub
import Infinito.Domains.Lifecycle
import Infinito.Lib.First
import Infinito.Domains.Catalog
import Infinito.Domains.Clients
import Infinito.Domains.Stable
import Infinito.Vault.Blocks
import Infinito.Vault.Exact
import Infinito.Roles.Closure
import Infinito.Roles.FormFields
import Infinito.Workspace.Locks
import Infinito.Lib.Free
import Infinito.Lib.Flow
import Infinito.Panel.ServerActions
import Infinito.Panel.HostVarsSync
import Infinito.Lib.Relay
import Infinito.Audit.Log
import Infinito.Lib.Like
import Infinito.Lib.Rank
import Infinito.Audit.Query
import Infinito.Audit.Export
import Infinito.Vault.Reset
import Infinito.Lib.Linked
import Infinito.Servers.Requirements
import Infinito.Runner.Versions
import Infinito.Panel.Deployment
import Infinito.Runner.Request
import Infinito.Runner.HostVars
import Infinito.Servers.Users
