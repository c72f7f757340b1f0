import ClassGrammar.CommandLine
import ClassGrammar.Document
import ClassGrammar.Fault
import ClassGrammar.FileSystem
import ClassGrammar.Generate
import ClassGrammar.Grammar.Basic
import ClassGrammar.Grammar.Link
import ClassGrammar.Grammar.Outline
import ClassGrammar.Grammar.Render
import ClassGrammar.Host
import ClassGrammar.IdIndex
import ClassGrammar.Main
import ClassGrammar.Markup.Bytes
import ClassGrammar.Markup.Event
import ClassGrammar.Markup.Fault
import ClassGrammar.Markup.Piece
import ClassGrammar.Markup.Reference
import ClassGrammar.Model.Basic
import ClassGrammar.Model.Build
import ClassGrammar.Model.Draft
import ClassGrammar.Node.Basic
import ClassGrammar.Node.Preorder
import ClassGrammar.Path
import ClassGrammar.Primitive
import ClassGrammar.Proofs.Comparison.ClearedFlags
import ClassGrammar.Proofs.Comparison.FurtherNodes
import ClassGrammar.Proofs.Comparison.LockstepReading
import ClassGrammar.Proofs.Comparison.NodeOrder
import ClassGrammar.Proofs.Comparison.Observations
import ClassGrammar.Proofs.Comparison.ReidentifiedGrammars
import ClassGrammar.Proofs.Comparison.ReidentifiedModels
import ClassGrammar.Proofs.Comparison.Renaming
import ClassGrammar.Proofs.Comparison.RenamingInvariance
import ClassGrammar.Proofs.Comparison.SettingsInfluence
import ClassGrammar.Proofs.Documents.ElementTrees
import ClassGrammar.Proofs.Documents.NestedEvents
import ClassGrammar.Proofs.Documents.QuickCheck
import ClassGrammar.Proofs.Documents.TagBytes
import ClassGrammar.Proofs.Documents.TransparentPackages
import ClassGrammar.Proofs.General.FirstOccurrences
import ClassGrammar.Proofs.General.Lists
import ClassGrammar.Proofs.General.Outcome
import ClassGrammar.Proofs.General.Spelling
import ClassGrammar.Proofs.General.WordChanges
import ClassGrammar.Proofs.IndexChecks.CheckedReading
import ClassGrammar.Proofs.IndexChecks.IndexSafety
import ClassGrammar.Proofs.Linking.CellLinking
import ClassGrammar.Proofs.Linking.DanglingReferences
import ClassGrammar.Proofs.Linking.DeclaredHandles
import ClassGrammar.Proofs.Linking.LinkedOutcome
import ClassGrammar.Proofs.Linking.NameLookup
import ClassGrammar.Proofs.Linking.NameTable
import ClassGrammar.Proofs.Linking.OrderIndependence
import ClassGrammar.Proofs.Linking.PartialEffect
import ClassGrammar.Proofs.Linking.PendingSlots
import ClassGrammar.Proofs.Linking.RunsLinkAll
import ClassGrammar.Proofs.Linking.UndeclaredTypes
import ClassGrammar.Proofs.Models.AppendedNodes
import ClassGrammar.Proofs.Models.CheckedReferences
import ClassGrammar.Proofs.Models.Defects
import ClassGrammar.Proofs.Models.DirectReading
import ClassGrammar.Proofs.Models.ElementSources
import ClassGrammar.Proofs.Models.FaithfulModels
import ClassGrammar.Proofs.Models.FilledMembers
import ClassGrammar.Proofs.Models.FinishedModels
import ClassGrammar.Proofs.Models.HandleRange
import ClassGrammar.Proofs.Models.LargerIndex
import ClassGrammar.Proofs.Models.LibraryTypes
import ClassGrammar.Proofs.Models.MultiplicityBounds
import ClassGrammar.Proofs.Models.NeededNodes
import ClassGrammar.Proofs.Models.Numerals
import ClassGrammar.Proofs.Models.ReadingFunctions
import ClassGrammar.Proofs.Models.ReferenceKeys
import ClassGrammar.Proofs.Models.ReferenceKinds
import ClassGrammar.Proofs.Models.SharedIdentifiers
import ClassGrammar.Proofs.Models.TracedDrafts
import ClassGrammar.Proofs.Models.WorkBound
import ClassGrammar.Proofs.Nodes.BuildSteps
import ClassGrammar.Proofs.Nodes.DistinctKeys
import ClassGrammar.Proofs.Nodes.IndexSearch
import ClassGrammar.Proofs.Nodes.LastOccurrence
import ClassGrammar.Proofs.Outlines.AdmittedModels
import ClassGrammar.Proofs.Outlines.AttributePlacement
import ClassGrammar.Proofs.Outlines.AttributeTypes
import ClassGrammar.Proofs.Outlines.Declarations
import ClassGrammar.Proofs.Outlines.DescribedElements
import ClassGrammar.Proofs.Outlines.FirstRejection
import ClassGrammar.Proofs.Outlines.LenientSettings
import ClassGrammar.Proofs.Outlines.ListedPrimitives
import ClassGrammar.Proofs.Outlines.NavigableEnds
import ClassGrammar.Proofs.Outlines.RunOutcome
import ClassGrammar.Proofs.Outlines.TopLevelNodes
import ClassGrammar.Proofs.Program.AllOrNothing
import ClassGrammar.Proofs.Program.FilesInMemory
import ClassGrammar.Proofs.Program.SettingsFiles
import ClassGrammar.Proofs.Texts.GrammarRecovery
import ClassGrammar.Proofs.Texts.LiteralLines
import ClassGrammar.Proofs.Texts.PrintedNames
import ClassGrammar.Proofs.Texts.TerminalRules
import ClassGrammar.Proofs.Texts.TextContent
import ClassGrammar.Settings.Basic
import ClassGrammar.Settings.Field
import ClassGrammar.Settings.Json
import ClassGrammar.Settings.Load
import ClassGrammar.Settings.Readers
import ClassGrammar.Settings.Yaml.Mark
import ClassGrammar.Settings.Yaml.Scalar
import ClassGrammar.Settings.Yaml.Token
import ClassGrammar.Settings.Yaml.Tree
import ClassGrammar.Text.Blank
import ClassGrammar.Text.Lowercase
import ClassGrammar.Text.Number
import ClassGrammar.Text.Utf8
import ClassGrammar.Transform
