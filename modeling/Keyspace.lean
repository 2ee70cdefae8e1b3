import Keyspace.Backend
import Keyspace.Call
import Keyspace.Changes
import Keyspace.Chunked.Info
import Keyspace.Chunked.Reader
import Keyspace.Chunked.Write
import Keyspace.Client
import Keyspace.Config
import Keyspace.Config.Load
import Keyspace.Diff
import Keyspace.Diff.Frame
import Keyspace.Failure
import Keyspace.Instant
import Keyspace.Json.Payload
import Keyspace.Json.Reader
import Keyspace.Json.Shape
import Keyspace.Json.Value
import Keyspace.Leadership
import Keyspace.Lock.Acquire
import Keyspace.Lock.Lock
import Keyspace.Order
import Keyspace.Prog
import Keyspace.Prog.Lemmas
import Keyspace.Proofs.Chunked.AllOrNothing
import Keyspace.Proofs.Chunked.Clash
import Keyspace.Proofs.Chunked.Layout
import Keyspace.Proofs.Chunked.Mixed
import Keyspace.Proofs.Chunked.Present
import Keyspace.Proofs.Chunked.Reading
import Keyspace.Proofs.Chunked.Shelf
import Keyspace.Proofs.Chunked.Site
import Keyspace.Proofs.Chunked.Snapshot
import Keyspace.Proofs.Chunked.Stages
import Keyspace.Proofs.Chunked.Storage
import Keyspace.Proofs.Chunked.Writing
import Keyspace.Proofs.Json.RoundTrip
import Keyspace.Proofs.Lock.Budget
import Keyspace.Proofs.Lock.Calls
import Keyspace.Proofs.Lock.Contention
import Keyspace.Proofs.Lock.Exclusion
import Keyspace.Proofs.Lock.Guarded
import Keyspace.Proofs.Lock.Ledger
import Keyspace.Proofs.Lock.Record
import Keyspace.Proofs.Lock.Rivals
import Keyspace.Proofs.Lock.Stake
import Keyspace.Proofs.Lock.Vying
import Keyspace.Proofs.Run.Arena
import Keyspace.Proofs.Run.Course
import Keyspace.Proofs.Run.Ensures
import Keyspace.Proofs.Run.Move
import Keyspace.Proofs.Run.Reading
import Keyspace.Proofs.Store.Advance
import Keyspace.Proofs.Store.Answer
import Keyspace.Proofs.Store.Chronicle
import Keyspace.Proofs.Store.Commit
import Keyspace.Proofs.Store.Edit
import Keyspace.Proofs.Store.Ending
import Keyspace.Proofs.Store.Log
import Keyspace.Proofs.Store.Prefix
import Keyspace.Proofs.Store.View
import Keyspace.Proofs.Text.Head
import Keyspace.Proofs.Text.Numeral
import Keyspace.Proofs.Watch.Fetch
import Keyspace.Proofs.Watch.Flow
import Keyspace.Proofs.Watch.GapFree
import Keyspace.Proofs.Watch.Mirror
import Keyspace.Queue
import Keyspace.Record
import Keyspace.Retry
import Keyspace.Retry.Run
import Keyspace.Retry.Script
import Keyspace.Sim.Job
import Keyspace.Sim.Script
import Keyspace.Sim.Session
import Keyspace.SortedMap
import Keyspace.SortedMap.Lemmas
import Keyspace.Span
import Keyspace.Store.Basic
import Keyspace.Store.Cluster
import Keyspace.Store.Compact
import Keyspace.Store.Feed
import Keyspace.Store.Lease
import Keyspace.Store.Write
import Keyspace.Text.Affix
import Keyspace.Text.Blank
import Keyspace.Text.Utf8
import Keyspace.Text.Utf8.Lemmas
import Keyspace.Toml.Document
import Keyspace.Toml.Scalar
import Keyspace.Txn
import Keyspace.Watch.Forwarder
import Keyspace.Watch.Threshold
import Keyspace.Proofs.Store.Draft
import Keyspace.Proofs.Store.Transaction
import Keyspace.Proofs.Run.TimeTravel
import Keyspace.Proofs.Store.Alike
import Keyspace.Proofs.Run.Compaction
import Keyspace.Proofs.Watch.Members
import Keyspace.Proofs.Watch.Threshold
import Keyspace.Proofs.Diff.Framing
import Keyspace.Proofs.Diff.Delivery
import Keyspace.Proofs.Store.Binding
import Keyspace.Proofs.Run.Leases
import Keyspace.Proofs.Diff.Application
import Keyspace.Proofs.Run.Visit
import Keyspace.Proofs.Diff.Sync
import Keyspace.Proofs.Diff.Grammar
import Keyspace.Proofs.Retry.Law
import Keyspace.Proofs.Run.Subscription
import Keyspace.Proofs.Watch.Forwarding
import Keyspace.Proofs.Watch.Relaying
import Keyspace.Proofs.Watch.Since
import Keyspace.Proofs.Diff.Minimal
import Keyspace.Proofs.Diff.Renaming
import Keyspace.Proofs.Diff.Refusal
import Keyspace.Proofs.Run.Throughout
import Keyspace.Proofs.Lock.Release
import Keyspace.Proofs.Lock.Tenure
import Keyspace.Proofs.Lock.Turnover
import Keyspace.Proofs.Store.Matching
import Keyspace.Proofs.Store.Succession
import Keyspace.Proofs.Run.Expiry
import Keyspace.Proofs.Cluster.Formed
import Keyspace.Proofs.Cluster.Probing
import Keyspace.Proofs.Cluster.Leadership
import Keyspace.Proofs.Watch.Recording
import Keyspace.Proofs.Watch.Fates
import Keyspace.Proofs.Run.Lines
import Keyspace.Proofs.Run.Prefixes
import Keyspace.Proofs.Run.Ways
import Keyspace.Proofs.Run.Lineage
import Keyspace.Proofs.Chunked.Neighbours
import Keyspace.Proofs.Chunked.Confined
import Keyspace.Proofs.Retry.Faults
import Keyspace.Proofs.Retry.Once
import Keyspace.Proofs.Store.Spans
import Keyspace.Proofs.Watch.Collapse
import Keyspace.Proofs.Chunked.Cutting
import Keyspace.Proofs.Lock.Rounds
