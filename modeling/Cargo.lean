import Cargo.Math.Acyclic
import Cargo.Math.FirstPath
import Cargo.Math.Iteration
import Cargo.Util.DependencyQueue
import Cargo.Util.DependencyQueue.Run
import Cargo.Util.DependencyQueue.Spec
import Cargo.Compiler.JobQueue
import Cargo.Compiler.JobQueue.Drain
import Cargo.Compiler.JobQueue.Tasks
import Cargo.Util.Cfg
import Cargo.Core.PackageId
import Cargo.Core.Url
import Cargo.Core.SourceId
import Cargo.Core.IdOrder
import Cargo.Math.FormCoding
import Cargo.Core.SourceId.Text
import Cargo.Core.SourceId.Normalized
import Cargo.Core.SourceId.RoundTrip
import Cargo.Math.Comparison
import Cargo.Core.Dependency
import Cargo.Core.Summary
import Cargo.Math.Heap
import Cargo.Resolver.Types
import Cargo.Resolver.Context
import Cargo.Resolver.ConflictCache
import Cargo.Resolver.Search
import Cargo.Resolver.Failures
import Cargo.Util.Graph
import Cargo.Resolver.Resolve
import Cargo.Resolver.Requirements
import Cargo.Resolver.FeatureClosure
import Cargo.Resolver.Activation
import Cargo.Resolver.Invariant
import Cargo.Resolver.Soundness
import Cargo.Resolver.Selection
import Cargo.Resolver.Accounted
import Cargo.Resolver.ConflictTruth
import Cargo.Resolver.Completeness
import Cargo.Resolver.Cycles
import Cargo.Math.Descent
import Cargo.Resolver.Bounds
import Cargo.Resolver.Links
import Cargo.Math.Peekable
import Cargo.Resolver.Candidates
import Cargo.Resolver.Iteration
import Cargo.Resolver.Termination
import Cargo.Math.Sweep
import Cargo.Ops.PreviousLocks
import Cargo.Ops.UnlockClosure
import Cargo.Math.Transition
import Cargo.Math.Memo
import Cargo.Compiler.Fingerprint
import Cargo.Compiler.Fingerprint.Hash
import Cargo.Compiler.Fingerprint.History
import Cargo.Compiler.Fingerprint.Interrupted
import Cargo.Compiler.Fingerprint.Jobs
import Cargo.Compiler.Fingerprint.Rebuild
import Cargo.Util.LockServer
import Cargo.Util.LockServer.Invariant
import Cargo.Util.LockServer.Exclusion
import Cargo.Ops.Fix
import Cargo.Ops.Fix.Verified
import Cargo.Core.Workspace
import Cargo.Core.Workspace.Members
import Cargo.Core.Workspace.DefaultMembers
import Cargo.Core.Downloads
import Cargo.Core.Downloads.Invariant
import Cargo.Core.Downloads.Protocol
import Cargo.Core.Downloads.Speed
import Cargo.Math.Pointers
import Cargo.Sources.Config
import Cargo.Math.Assoc
import Cargo.Math.Gather
import Cargo.Util.Config
import Cargo.Util.Config.Merge
import Cargo.Util.Credentials
import Cargo.Util.Rustc
import Cargo.Util.Rustc.Transparency
import Cargo.Ops.CargoInstall
import Cargo.Ops.CargoInstall.Tracking
import Cargo.Util.Toml
import Cargo.Util.Toml.Targets
import Cargo.Util.Toml.Manifest
import Cargo.Util.Toml.Entries
import Cargo.Util.Toml.Publish
import Cargo.Util.Toml.Published
import Cargo.Util.Toml.Preserved
import Cargo.Math.Slice
import Cargo.Util.Cfg.Parse
import Cargo.Util.Cfg.Grammar
import Cargo.Util.Cfg.RoundTrip
import Cargo.Resolver.ExternNames
import Cargo.Core.PackageIdSpec
import Cargo.Core.PackageIdSpec.Normalized
import Cargo.Core.PackageIdSpec.RoundTrip
import Cargo.Core.PackageIdSpec.Advice
import Cargo.Math.EditDistance
import Cargo.Util.LevDistance
import Cargo.Util.Toml.Profile
import Cargo.Core.Profiles
import Cargo.Core.Profiles.Precedence
import Cargo.Core.Registry
import Cargo.Resolver.NamespacedFeatures
import Cargo.Util.Config.Deserialize
import Cargo.Util.Config.Faithful
import Cargo.Math.Words
import Cargo.Util.Paths
import Cargo.Compiler.Fingerprint.DepInfo
import Cargo.Compiler.OutputDepinfo
import Cargo.Math.Pruning
import Cargo.Sources.Path
import Cargo.Ops.CargoPackage
import Cargo.Compiler.CustomBuild.BuildMap
import Cargo.Compiler.CustomBuild.BuildOutput
import Cargo.Util.ProcessBuilder
import Cargo.Math.Switching
import Cargo.Sources.Registry.Index
import Cargo.Math.Fitting
import Cargo.Util.Progress
import Cargo.Math.Explore
import Cargo.Math.Stateful
import Cargo.Compiler.UnitDependencies.Graph
import Cargo.Compiler.UnitDependencies.Acyclic
import Cargo.Core.Profiles.Overrides
import Cargo.Compiler.UnitDependencies.Made
import Cargo.Compiler.UnitDependencies.Order
import Cargo.Resolver.Replaced
import Cargo.Resolver.Encode
import Cargo.Resolver.Encode.RoundTrip
import Cargo.Resolver.Encode.PathDeps
import Cargo.Resolver.Encode.Elsewhere
import Cargo.Resolver.Encode.Sources
import Cargo.Ops.Lockfile
import Cargo.Math.Visit
import Cargo.Compiler.UnitDependencies.Compile
import Cargo.Compiler.UnitDependencies.Compiled
import Cargo.Compiler.UnitDependencies.Runs
import Cargo.Compiler.UnitDependencies.BuildState
