import VueOptions.Main
import VueOptions.Proofs.Classification.Ownership
import VueOptions.Proofs.Options.OneWay
import VueOptions.Proofs.Classification.PassOrder
import VueOptions.Proofs.Classification.FirstFault
import VueOptions.Proofs.Classification.StaticMembers
import VueOptions.Proofs.Blocks.PrintedFile
import VueOptions.Proofs.Blocks.WrittenFile
import VueOptions.Proofs.Options.Conservation
import VueOptions.Proofs.Options.Registration
import VueOptions.Proofs.Options.TopLevelNames
import VueOptions.Proofs.Layout.HouseStyle
import VueOptions.Proofs.Layout.Reindentation
import VueOptions.Proofs.Layout.Literals
import VueOptions.Proofs.Options.LiteralTexts
import VueOptions.Proofs.Blocks.CompiledFile
import VueOptions.Proofs.Project.Places
import VueOptions.Proofs.Project.Outputs
import VueOptions.Proofs.Project.Steps
import VueOptions.Proofs.Project.Discovered
import VueOptions.Proofs.Project.Isolation
import VueOptions.Proofs.Project.Schedule
import VueOptions.Proofs.Project.Rediscovery
import VueOptions.Proofs.Project.SecondRun
import VueOptions.Proofs.Project.ShownTables
import VueOptions.Proofs.Project.FailingLinter
import VueOptions.Proofs.Layout.FirstLine
import VueOptions.Proofs.Classification.Targets
import VueOptions.Proofs.Options.WatchOptions
import VueOptions.Proofs.Script.EntryHeads
import VueOptions.Proofs.Layout.LineStart
import VueOptions.Proofs.Options.MemberFidelity
import VueOptions.Proofs.Options.PropEntry
import VueOptions.Proofs.Layout.Shift
import VueOptions.Proofs.Layout.NormalLines
import VueOptions.Proofs.Options.EmitTrigger
import VueOptions.Proofs.Blocks.NestedTemplates
import VueOptions.Proofs.Project.Directories
import VueOptions.Proofs.Project.DistinctFiles
import VueOptions.Proofs.Layout.Roles
import VueOptions.Proofs.Layout.SecondPass
import VueOptions.Proofs.Layout.DedentedLines
import VueOptions.Proofs.Layout.RequotedLiterals
import VueOptions.Proofs.Blocks.BlockExtents
import VueOptions.Proofs.Options.QuotedNames
import VueOptions.Proofs.Layout.EditedLines
