import Mic3.Acceptance
import Mic3.AcceptedWork
import Mic3.Accounts
import Mic3.Admission
import Mic3.Attempts
import Mic3.CanonicalText
import Mic3.Capacity
import Mic3.Catalog
import Mic3.Changes
import Mic3.ChartValues
import Mic3.ClaimOrder
import Mic3.Claiming
import Mic3.ClusterHistory
import Mic3.Compatibility
import Mic3.Computation
import Mic3.ComputationIdentity
import Mic3.Conclusions
import Mic3.Configuration
import Mic3.Consumption
import Mic3.Containment
import Mic3.Deadlock
import Mic3.Delivery
import Mic3.Dispatch
import Mic3.Documents
import Mic3.Emissions
import Mic3.Envelopes
import Mic3.Equality
import Mic3.Errors
import Mic3.Evidence
import Mic3.Exclusion
import Mic3.ExecutedOnce
import Mic3.Execution
import Mic3.Feed
import Mic3.FeedBounds
import Mic3.FeedSections
import Mic3.Fingerprint
import Mic3.FirstLogin
import Mic3.Holding
import Mic3.Holds
import Mic3.Interruptions
import Mic3.Jobs
import Mic3.Json
import Mic3.JsonPatch
import Mic3.JsonValues
import Mic3.Judgement
import Mic3.Knowledge
import Mic3.KubernetesJobs
import Mic3.Layers
import Mic3.Lib.Dict
import Mic3.Lib.Encoding
import Mic3.Lib.LockTable
import Mic3.Lib.Query
import Mic3.Lib.Regex
import Mic3.Lib.Server
import Mic3.Lib.System
import Mic3.Lib.Table
import Mic3.Lib.Trace
import Mic3.Lifecycle
import Mic3.LiveCoverage
import Mic3.LiveFeed
import Mic3.LiveUpdates
import Mic3.LockOrder
import Mic3.LockedConnections
import Mic3.LockedExclusion
import Mic3.LockedSections
import Mic3.LockedVisits
import Mic3.Locking
import Mic3.Notifications
import Mic3.Offsets
import Mic3.Origins
import Mic3.Outbox
import Mic3.OutputPrefixes
import Mic3.Outputs
import Mic3.OwnershipPatch
import Mic3.ParameterSchema
import Mic3.Platform
import Mic3.Publication
import Mic3.Python
import Mic3.Reconciliation
import Mic3.Records
import Mic3.Redeployment
import Mic3.Registration
import Mic3.Registrations
import Mic3.ReleasePublication
import Mic3.Requests
import Mic3.RequiredOutputs
import Mic3.Resolving
import Mic3.Resumption
import Mic3.RunDetails
import Mic3.RunHistory
import Mic3.RunLocks
import Mic3.Serialization
import Mic3.Sha256
import Mic3.Sightings
import Mic3.Snapshots
import Mic3.SoleJobs
import Mic3.StoredDefinitions
import Mic3.StreamChecks
import Mic3.Streams
import Mic3.Submission
import Mic3.SubmittedWork
import Mic3.Supervision
import Mic3.Tables
import Mic3.Uuid
import Mic3.Versions
import Mic3.Wakeups
import Mic3.World
import Mic3.Writers
