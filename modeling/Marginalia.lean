import Marginalia.CommandLine
import Marginalia.Config.View
import Marginalia.Editor.Basic
import Marginalia.Editor.Command
import Marginalia.Keywords.Assembly
import Marginalia.Keywords.Edit
import Marginalia.Keywords.Group
import Marginalia.Keywords.Line
import Marginalia.Keywords.Writer
import Marginalia.Main
import Marginalia.Moment.Basic
import Marginalia.Moment.Reader
import Marginalia.Number.Binary64
import Marginalia.Number.Decimal
import Marginalia.Number.Shortest
import Marginalia.Session.Basic
import Marginalia.Session.Debounce
import Marginalia.Session.Documents
import Marginalia.Settings.Basic
import Marginalia.Settings.Expansion
import Marginalia.Store.Basic
import Marginalia.Store.FileTree
import Marginalia.Store.SavedState
import Marginalia.Text.Basic
import Marginalia.Text.Buffer
import Marginalia.Text.CharClass
import Marginalia.Text.Edit
import Marginalia.Text.Line
import Marginalia.Toml.Bare
import Marginalia.Toml.Quoted
import Marginalia.Toml.Reader
import Marginalia.Toml.Value
import Marginalia.Version.Basic
import Marginalia.Version.Manifest
import Marginalia.Yaml.Error
import Marginalia.Yaml.Lookup
import Marginalia.Yaml.Node
import Marginalia.Yaml.Outline
import Marginalia.Yaml.Patch
import Marginalia.Yaml.Scalar
import Marginalia.Yaml.Source
import Marginalia.Yaml.Token.Basic
import Marginalia.Yaml.Token.Block
import Marginalia.Yaml.Token.Plain
import Marginalia.Yaml.Token.Property
import Marginalia.Yaml.Token.Quoted
import Marginalia.Yaml.Token.Scan
import Marginalia.Yaml.Value
import Marginalia.Proofs.Session.Run
import Marginalia.Proofs.Session.Rendered
import Marginalia.Proofs.Session.Saved
import Marginalia.Proofs.Session.Shown
import Marginalia.Proofs.Session.Spliced
import Marginalia.Proofs.Text.Lines
import Marginalia.Proofs.Text.Edits
import Marginalia.Proofs.Text.OneLine
import Marginalia.Proofs.Yaml.Outline
import Marginalia.Proofs.Yaml.Isolation
import Marginalia.Proofs.Yaml.Owner
import Marginalia.Proofs.Yaml.Reorder
import Marginalia.Proofs.Yaml.Field
import Marginalia.Proofs.Yaml.ReadBack
import Marginalia.Proofs.Yaml.InPlace
import Marginalia.Proofs.Keywords.Line
import Marginalia.Proofs.Keywords.Runs
import Marginalia.Proofs.Keywords.Step
import Marginalia.Proofs.Keywords.Written
import Marginalia.Proofs.Keywords.Reading
import Marginalia.Proofs.Keywords.Layout
import Marginalia.Proofs.Keywords.Canonical
import Marginalia.Proofs.Keywords.Rearrange
import Marginalia.Proofs.Keywords.Places
import Marginalia.Proofs.Keywords.Spaced
import Marginalia.Proofs.Keywords.Origin
import Marginalia.Proofs.Session.Fixed
import Marginalia.Proofs.Keywords.Related
import Marginalia.Proofs.Yaml.Onward
import Marginalia.Proofs.Yaml.Entry
import Marginalia.Proofs.Yaml.Items
import Marginalia.Proofs.Yaml.ItemList
import Marginalia.Proofs.Yaml.BlockText
import Marginalia.Proofs.Yaml.ListInPlace
import Marginalia.Proofs.Store.FailedSave
import Marginalia.Proofs.Editor.Reload
import Marginalia.Proofs.Number.Layout
import Marginalia.Proofs.Number.Rounding
import Marginalia.Proofs.Number.Shortest
import Marginalia.Proofs.Number.Written
import Marginalia.Proofs.Yaml.EntryList
import Marginalia.Proofs.Yaml.Blocks
import Marginalia.Proofs.Yaml.BlockSite
import Marginalia.Proofs.Yaml.Numbers
import Marginalia.Proofs.Yaml.ListUnchanged
import Marginalia.Proofs.Yaml.TwoPaths
import Marginalia.Proofs.Yaml.BlocksInPlace
import Marginalia.Proofs.Yaml.Names
import Marginalia.Proofs.Yaml.OrderInPlace
import Marginalia.Proofs.Editor.Selections
import Marginalia.Proofs.Editor.Toggle
import Marginalia.Proofs.Editor.Saving
import Marginalia.Proofs.Keywords.Comments
import Marginalia.Proofs.Keywords.CommentsWritten
import Marginalia.Proofs.Keywords.Amended
import Marginalia.Proofs.Session.Flush
import Marginalia.Proofs.Session.Quiet
import Marginalia.Proofs.Text.Bytes
import Marginalia.Proofs.Keywords.Alone
import Marginalia.Proofs.Keywords.Rewritten
import Marginalia.Proofs.Session.Words
import Marginalia.Proofs.Keywords.OwnLines
import Marginalia.Proofs.Keywords.Numbered
import Marginalia.Proofs.Yaml.Located
import Marginalia.Proofs.Yaml.FieldText
import Marginalia.Proofs.Yaml.Comment
import Marginalia.Proofs.Yaml.Repeated
import Marginalia.Proofs.Yaml.PlainComment
import Marginalia.Proofs.Keywords.InPlace
import Marginalia.Proofs.Session.LeftAlone
import Marginalia.Proofs.Yaml.NumberField
import Marginalia.Proofs.Text.Parts
import Marginalia.Proofs.Yaml.ListRegion
import Marginalia.Proofs.Yaml.ListText
import Marginalia.Proofs.Yaml.ListTwice
import Marginalia.Proofs.Yaml.OnlyLists
import Marginalia.Proofs.Yaml.Nested
import Marginalia.Proofs.Version.Marker
import Marginalia.Proofs.Version.Check
import Marginalia.Proofs.Store.Times
import Marginalia.Proofs.Store.StateText
import Marginalia.Proofs.Store.Saves
import Marginalia.Proofs.Yaml.Spelling
import Marginalia.Proofs.Yaml.Notes
import Marginalia.Proofs.Yaml.NotedLine
import Marginalia.Proofs.Yaml.TwoBlocks
import Marginalia.Proofs.Yaml.NotesKept
import Marginalia.Proofs.Toml.Document
import Marginalia.Proofs.Yaml.Delimited
import Marginalia.Proofs.Yaml.Modules
import Marginalia.Proofs.Settings.Text
import Marginalia.Proofs.Settings.Reload
import Marginalia.Proofs.Text.Partition
import Marginalia.Proofs.Toml.Quoted
