import ScopedValues.Pool
import ScopedValues.Session.Report
import ScopedValues.Store.Lemmas
import ScopedValues.Table.Lemmas
import ScopedValues.Proofs.Copies.Trial
import ScopedValues.Proofs.Scopes.Chain
import ScopedValues.Proofs.Copies.Sharing
import ScopedValues.Proofs.Storage.Containers
import ScopedValues.Proofs.Sessions.Keeping
import ScopedValues.Proofs.Sessions.Contexts
import ScopedValues.Proofs.Sessions.Variables
import ScopedValues.Proofs.Sessions.Places
import ScopedValues.Proofs.Sessions.Steps
import ScopedValues.Proofs.Scopes.Writes
import ScopedValues.Proofs.Sessions.Reachable
import ScopedValues.Proofs.Scopes.Resolution
import ScopedValues.Proofs.Scopes.Footprint
import ScopedValues.Proofs.Views.Following
import ScopedValues.Proofs.Views.Comparing
import ScopedValues.Proofs.Views.Copying
import ScopedValues.Proofs.Views.Queries
import ScopedValues.Proofs.Isolation.Runs
import ScopedValues.Proofs.Isolation.Copies
import ScopedValues.Ascent
import ScopedValues.Proofs.Scopes.Forest
import ScopedValues.Proofs.Numbers.Decimals
import ScopedValues.Proofs.Numbers.Intervals
import ScopedValues.Proofs.Numbers.Writing
import ScopedValues.Proofs.Views.Decoding
import ScopedValues.Proofs.Views.Rendering
import ScopedValues.Proofs.Ownership.Runs
import ScopedValues.Proofs.Views.Termination
import ScopedValues.Proofs.Habits.Steps
import ScopedValues.Proofs.Habits.Peace
import ScopedValues.Proofs.Scopes.Reentrancy
import ScopedValues.Proofs.Habits.Fidelity
import ScopedValues.Proofs.Habits.Recording
import ScopedValues.Proofs.Scopes.Chronicle
import ScopedValues.Proofs.Pools.Counts
import ScopedValues.Proofs.Pools.Runs
import ScopedValues.Proofs.Pools.Programs
import ScopedValues.Proofs.Cursors.Keys
import ScopedValues.Proofs.Cursors.Elements
import ScopedValues.Proofs.Cursors.Passes
import ScopedValues.Proofs.Habits.Registering
import ScopedValues.Proofs.Scopes.Requests
import ScopedValues.Proofs.Scopes.Globals
import ScopedValues.Proofs.Refusals.Commands
import ScopedValues.Proofs.Refusals.Unmoved
import ScopedValues.Proofs.Refusals.Pruning
import ScopedValues.Proofs.Storage.Additions
import ScopedValues.Proofs.Refusals.Successes
import ScopedValues.Proofs.Numbers.Rounding
import ScopedValues.Proofs.Storage.Positions
import ScopedValues.Proofs.Views.Faithfulness
import ScopedValues.Proofs.Cursors.Walks
import ScopedValues.Proofs.Scopes.Snapshots
import ScopedValues.Proofs.Views.Shortcuts
import ScopedValues.Proofs.Scopes.Shadows
import ScopedValues.Proofs.Scopes.Assignments
