import DebianPackaging.Text.Line
import DebianPackaging.Text.Decimal
import DebianPackaging.Text.Case
import DebianPackaging.Text.ShellWord
import DebianPackaging.Version.Basic
import DebianPackaging.Version.Project
import DebianPackaging.Version.Release
import DebianPackaging.Error
import DebianPackaging.Relation.Basic
import DebianPackaging.Relation.Reader
import DebianPackaging.Relation.Entry
import DebianPackaging.Relation.Field
import DebianPackaging.Relation.Order
import DebianPackaging.Relation.Floor
import DebianPackaging.Relation.Wrap
import DebianPackaging.Makefile.DhCommand
import DebianPackaging.Makefile.Rule
import DebianPackaging.Makefile.Basic
import DebianPackaging.Makefile.Phony
import DebianPackaging.Makefile.Override
import DebianPackaging.Files.Tree
import DebianPackaging.Files.Document
import DebianPackaging.Control.Paragraph
import DebianPackaging.Control.Document
import DebianPackaging.Control.Relations
import DebianPackaging.Control.Vcs
import DebianPackaging.Toml.Cell
import DebianPackaging.Toml.Quoted
import DebianPackaging.Toml.Real
import DebianPackaging.Toml.Number
import DebianPackaging.Toml.Moment
import DebianPackaging.Toml.Value
import DebianPackaging.Toml.Document
import DebianPackaging.Toml.Reader
import DebianPackaging.Toml.Conflict
import DebianPackaging.Toml.Edit
import DebianPackaging.EditScript
import DebianPackaging.Toml.Update
import DebianPackaging.Crate.Version
import DebianPackaging.Crate.Name
import DebianPackaging.Manifest.Basic
import DebianPackaging.Manifest.Source
import DebianPackaging.Manifest.BuildDepends
import DebianPackaging.Manifest.Binary
import DebianPackaging.Package.Layout
import DebianPackaging.Package.Metadata
import DebianPackaging.Package.Open
import DebianPackaging.Debhelper.Compat
import DebianPackaging.Debhelper.Dependency
import DebianPackaging.Text.Encoding
import DebianPackaging.Json.Reader
import DebianPackaging.Debhelper.Levels
import DebianPackaging.CommandLine.Color
import DebianPackaging.CommandLine.Report
import DebianPackaging.CommandLine.Argument
import DebianPackaging.CommandLine.Command
import DebianPackaging.CommandLine.Action
import DebianPackaging.CommandLine.Program
import DebianPackaging.Main
import DebianPackaging.Proofs.Outcome
import DebianPackaging.Proofs.Text.Basic
import DebianPackaging.Proofs.Text.Blank
import DebianPackaging.Proofs.Text.Line
import DebianPackaging.Proofs.Text.Fold
import DebianPackaging.Proofs.Relation.RoundTrip
import DebianPackaging.Proofs.Relation.Grammar
import DebianPackaging.Proofs.Relation.Canonical
import DebianPackaging.Proofs.Relation.ReadBack
import DebianPackaging.Proofs.Relation.Meaning
import DebianPackaging.Proofs.Relation.Order
import DebianPackaging.Proofs.Relation.Clause
import DebianPackaging.Proofs.Relation.Floor
import DebianPackaging.Proofs.Relation.Edit
import DebianPackaging.Proofs.Relation.Fold
import DebianPackaging.Proofs.Relation.Raise
import DebianPackaging.Proofs.Relation.Minimum
import DebianPackaging.Proofs.EditScript
import DebianPackaging.Proofs.Toml.Cell
import DebianPackaging.Proofs.Toml.Lookup
import DebianPackaging.Proofs.Toml.Set
import DebianPackaging.Proofs.Manifest.Texts
import DebianPackaging.Proofs.Manifest.BuildDepends
import DebianPackaging.Proofs.Control.Store
import DebianPackaging.Proofs.Debhelper.Clause
import DebianPackaging.Proofs.Package.Store
import DebianPackaging.Proofs.Debhelper.Plan
import DebianPackaging.Proofs.Debhelper.Minimum
import DebianPackaging.Proofs.Debhelper.Request
import DebianPackaging.Proofs.Debhelper.Agreement
import DebianPackaging.Proofs.Makefile.Layout
import DebianPackaging.Proofs.Makefile.Prerequisite
import DebianPackaging.Proofs.Makefile.Prune
import DebianPackaging.Proofs.Makefile.ReadBack
import DebianPackaging.Proofs.Makefile.Backslash
import DebianPackaging.Proofs.Makefile.Discard
import DebianPackaging.Proofs.Makefile.Steps
import DebianPackaging.Proofs.Makefile.Invocation
import DebianPackaging.Proofs.Makefile.Continuation
import DebianPackaging.Proofs.Manifest.ReadBack
import DebianPackaging.Proofs.Toml.Below
import DebianPackaging.Proofs.Toml.Frame
import DebianPackaging.Proofs.Text.Case
import DebianPackaging.Proofs.Control.Field
import DebianPackaging.Proofs.Control.Vcs
import DebianPackaging.Proofs.Manifest.Vcs
import DebianPackaging.Proofs.Package.Vcs
import DebianPackaging.Proofs.Control.Comment
import DebianPackaging.Proofs.Control.CommentBlock
import DebianPackaging.Proofs.Control.KeepComments
import DebianPackaging.Proofs.Control.Sort
import DebianPackaging.Proofs.Relation.Acceptance
import DebianPackaging.Proofs.Files.Tree
import DebianPackaging.Proofs.Files.Commit
import DebianPackaging.Proofs.CommandLine.Frame
import DebianPackaging.Proofs.Makefile.EditRun
import DebianPackaging.Proofs.Package.Rules
import DebianPackaging.Proofs.Text.Replace
import DebianPackaging.Proofs.DhCommand.Argument
import DebianPackaging.Proofs.DhCommand.AddOn
import DebianPackaging.Proofs.DhCommand.Twice
import DebianPackaging.Proofs.Relation.Wrap
import DebianPackaging.Proofs.Control.CommentPlace
import DebianPackaging.Proofs.Control.Fold
import DebianPackaging.Proofs.Control.KeepValue
import DebianPackaging.Proofs.DhCommand.Listing
import DebianPackaging.Proofs.DhCommand.Opening
import DebianPackaging.Proofs.DhCommand.Words
import DebianPackaging.Proofs.DhCommand.Item
import DebianPackaging.Proofs.DhCommand.Undo
import DebianPackaging.Proofs.DhCommand.Stray
import DebianPackaging.Proofs.Version.Project
import DebianPackaging.Proofs.Manifest.Provides
import DebianPackaging.Proofs.Makefile.DropPhony
import DebianPackaging.Proofs.Makefile.AddPhony
import DebianPackaging.Proofs.Toml.Update
import DebianPackaging.Proofs.Makefile.HeldRule
import DebianPackaging.Proofs.Makefile.RuleStore
import DebianPackaging.Proofs.Makefile.RuleStorePrune
import DebianPackaging.Proofs.Makefile.RuleStoreRun
import DebianPackaging.Proofs.Control.Fold
import DebianPackaging.Proofs.Control.KeepValue
import DebianPackaging.Proofs.Debhelper.Agreement
