import ModuleReload.FileSystem.Edit
import ModuleReload.FileSystem.Search
import ModuleReload.Module.Place
import ModuleReload.Name.Relative
import ModuleReload.OwnedRoots
import ModuleReload.Source.Declared
import ModuleReload.Source.Discovery
import ModuleReload.Freshness.Baselines
import ModuleReload.Freshness.Clock
import ModuleReload.Engine.Handover
import ModuleReload.Engine.Walk
import ModuleReload.Tree.Basic
import ModuleReload.Graph.Drawing
import ModuleReload.Dependencies.Listing
import ModuleReload.Settings.Load
import ModuleReload.ImportReport
import ModuleReload.CommandLine.Reading
import ModuleReload.Main
import ModuleReload.Terminal.Basic
import ModuleReload.Watch.Debouncer
import ModuleReload.Watch.Session
import ModuleReload.Proofs.Engine.Again
import ModuleReload.Proofs.Watch.Reached
import ModuleReload.Proofs.Watch.Cycle
import ModuleReload.Proofs.Watch.Pending
import ModuleReload.Proofs.Watch.Batches
import ModuleReload.Proofs.Watch.Call
import ModuleReload.Proofs.Watch.Quiescence
import ModuleReload.Proofs.Engine.Account
import ModuleReload.Proofs.Engine.Propagation
import ModuleReload.Proofs.Engine.Sketch
import ModuleReload.Proofs.Engine.Line
import ModuleReload.Proofs.Engine.Failure
import ModuleReload.Proofs.Engine.Alike
import ModuleReload.Proofs.Engine.Handover
import ModuleReload.Proofs.Engine.Marks
import ModuleReload.Proofs.Engine.Merging
import ModuleReload.Proofs.Engine.Ownership
import ModuleReload.Proofs.Watch.Report
import ModuleReload.Proofs.Tree.Dropped
import ModuleReload.Proofs.Watch.Present
import ModuleReload.Proofs.Engine.Saying
import ModuleReload.Proofs.Terminal.Tidy
import ModuleReload.Proofs.Watch.Blocks
import ModuleReload.Proofs.Source.Grammar
import ModuleReload.Proofs.Source.Spelling
import ModuleReload.Proofs.Source.Lines
import ModuleReload.Proofs.Source.Outline
import ModuleReload.Proofs.Source.Layout
import ModuleReload.Proofs.Source.Returns
import ModuleReload.Proofs.Source.Scope
import ModuleReload.Proofs.Source.Declared
import ModuleReload.Proofs.Source.Compound
import ModuleReload.Proofs.FileSystem.Edited
import ModuleReload.Proofs.Graph.Agreement
import ModuleReload.Proofs.Path.Parts
import ModuleReload.Proofs.Name.Relative
import ModuleReload.Proofs.Module.Naming
import ModuleReload.Proofs.Tree.Refresh
import ModuleReload.Proofs.Engine.Footprint
import ModuleReload.Proofs.Watch.Waking
import ModuleReload.Proofs.Watch.Quiet
import ModuleReload.Proofs.Engine.Coverage
import ModuleReload.Proofs.Engine.Outdated
import ModuleReload.Proofs.FileSystem.Normal
import ModuleReload.Proofs.OwnedRoots
import ModuleReload.Proofs.Module.Root
import ModuleReload.Proofs.ImportReport
import ModuleReload.Proofs.Source.Dotted
import ModuleReload.Proofs.Module.Compiled
import ModuleReload.Proofs.Graph.Membership
import ModuleReload.Proofs.Graph.Escapes
import ModuleReload.Proofs.Graph.Picture
import ModuleReload.Proofs.Source.Brackets
import ModuleReload.Proofs.Freshness.Baselines
