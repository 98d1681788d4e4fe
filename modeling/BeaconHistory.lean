import BeaconHistory.Archive.Scripted
import BeaconHistory.Archive.Shared
import BeaconHistory.History
import BeaconHistory.Proofs.Commitment
import BeaconHistory.Shelf
import BeaconHistory.Spec.Config
import BeaconHistory.Proofs.Advance
import BeaconHistory.Proofs.Position
import BeaconHistory.Proofs.ForkTree.Sound
import BeaconHistory.Proofs.ForkTree.Insert
import BeaconHistory.Proofs.ForkTree.Descent
import BeaconHistory.Proofs.ForkTree.Reanchor
import BeaconHistory.Proofs.ForkTree.Index
import BeaconHistory.Proofs.ForkTree.Lookups
import BeaconHistory.Proofs.ForkTree.Part
import BeaconHistory.Proofs.ForkTree.Cut
import BeaconHistory.Proofs.ForkTree.Step
import BeaconHistory.Proofs.ForkTree.Growing
import BeaconHistory.Proofs.Frontier.Changes
import BeaconHistory.Proofs.Frontier.Run
import BeaconHistory.Proofs.Frontier.Watched
import BeaconHistory.Proofs.Frontier.Accounts
import BeaconHistory.Proofs.Frontier.Fates
import BeaconHistory.Proofs.Frontier.Pieces
import BeaconHistory.Proofs.Chronicle
import BeaconHistory.Proofs.Replay
import BeaconHistory.Proofs.Production
import BeaconHistory.Proofs.Departures
import BeaconHistory.Proofs.Entry
import BeaconHistory.Proofs.Frontier.Replayed
import BeaconHistory.Proofs.Frontier.Derived
import BeaconHistory.Proofs.Frontier.Arrival
import BeaconHistory.Proofs.Frontier.Settlement
import BeaconHistory.Proofs.Slots
import BeaconHistory.Proofs.Questions
import BeaconHistory.Proofs.Ledger.Ingest
import BeaconHistory.Proofs.Archive.WriteOnce
import BeaconHistory.Proofs.Ledger.Lookups
import BeaconHistory.Proofs.Ledger.Filing
import BeaconHistory.Proofs.ForkTree.Steady
import BeaconHistory.Proofs.History.Run
import BeaconHistory.Proofs.Ledger.Tables
import BeaconHistory.Proofs.Ledger.Exact
import BeaconHistory.Proofs.History.Contents
import BeaconHistory.Proofs.History.Joined
import BeaconHistory.Proofs.History.Line
import BeaconHistory.Proofs.Ring
import BeaconHistory.Proofs.History.Recall
import BeaconHistory.Proofs.History.Traced
import BeaconHistory.Proofs.History.Exclusive
import BeaconHistory.Proofs.History.Faithful
import BeaconHistory.Proofs.History.Served
import BeaconHistory.Proofs.History.Moves
import BeaconHistory.Proofs.History.Ancestors
import BeaconHistory.Proofs.History.Finality
import BeaconHistory.Proofs.Frontier.Insertion
import BeaconHistory.Proofs.History.Grounded
import BeaconHistory.Proofs.History.Towards
import BeaconHistory.Proofs.Parallel
import BeaconHistory.Proofs.ForkTree.Headless
import BeaconHistory.Proofs.Frontier.Headless
import BeaconHistory.Proofs.Ledger.Alike
import BeaconHistory.Proofs.History.Use
import BeaconHistory.Proofs.History.ForkChoice
import BeaconHistory.Proofs.Guards
import BeaconHistory.Proofs.Frontier.Steady
import BeaconHistory.Proofs.History.Safe
import BeaconHistory.Proofs.Frontier.Pruning
import BeaconHistory.Proofs.Frontier.Verdict
import BeaconHistory.Proofs.History.Closest
import BeaconHistory.Proofs.History.Checkpoints
import BeaconHistory.Proofs.History.Stable
import BeaconHistory.Proofs.ForkTree.Padded
import BeaconHistory.Proofs.Frontier.Passing
import BeaconHistory.Proofs.Frontier.Rejected
import BeaconHistory.Proofs.Frontier.Materialized
import BeaconHistory.Proofs.Stages
import BeaconHistory.Proofs.Duties
import BeaconHistory.Proofs.Json.Reading
import BeaconHistory.Proofs.Json.Writing
import BeaconHistory.Proofs.Json.Restated
import BeaconHistory.Proofs.Serial
