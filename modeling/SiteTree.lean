import SiteTree.Text.Blank
import SiteTree.Text.Search
import SiteTree.Stylesheet.Lexical
import SiteTree.Stylesheet.Selector
import SiteTree.Stylesheet.Scope
import SiteTree.Markup.Tag
import SiteTree.Markup.Attribute
import SiteTree.Markup.ScopeClass
import SiteTree.Markup.Usage
import SiteTree.Text.Hex
import SiteTree.Text.Utf8
import SiteTree.Hash.Blake3
import SiteTree.Number.Double
import SiteTree.Json.Basic
import SiteTree.Json.Text
import SiteTree.Json.Fingerprint
import SiteTree.Json.Reader
import SiteTree.Path
import SiteTree.Disk.Basic
import SiteTree.Disk.Locate
import SiteTree.Disk.Change
import SiteTree.Component.Basic
import SiteTree.Failure
import SiteTree.Console
import SiteTree.ScopeId
import SiteTree.Toml.Basic
import SiteTree.Toml.Lexeme
import SiteTree.Toml.Number
import SiteTree.Toml.Document
import SiteTree.Config.Basic
import SiteTree.Config.Decode
import SiteTree.Command.Basic
import SiteTree.Command.Quoting
import SiteTree.Command.Switch
import SiteTree.Command.Concatenate
import SiteTree.Command.ByteSet
import SiteTree.Command.Transliterate
import SiteTree.Command.Filter
import SiteTree.Shell.Script
import SiteTree.Shell.Reader
import SiteTree.Shell.Pattern
import SiteTree.Shell.Arithmetic
import SiteTree.Shell.Machine
import SiteTree.Shell.Expansion
import SiteTree.Shell.Printing
import SiteTree.Shell.Condition
import SiteTree.Shell.Builtin
import SiteTree.Shell.Run
import SiteTree.Shell.Host
import SiteTree.Component.Resolution
import SiteTree.Config.Load
import SiteTree.Job
import SiteTree.Files
import SiteTree.Page.Tree
import SiteTree.Page.Layout
import SiteTree.Page.Html
import SiteTree.Template.Basic
import SiteTree.Template.Reference
import SiteTree.Template.Expression
import SiteTree.Template.Tag
import SiteTree.Template.Piece
import SiteTree.Template.Reader
import SiteTree.Template.Value
import SiteTree.Template.Scope
import SiteTree.Template.Helper
import SiteTree.Template.Render
import SiteTree.Stylesheet.Minify
import SiteTree.Script.Minify
import SiteTree.Markup.Minify
import SiteTree.Page.Stage
import SiteTree.Page.Bundle
import SiteTree.Page.Styles
import SiteTree.Page.Scripts
import SiteTree.Page.Output
import SiteTree.CommandLine.Grammar
import SiteTree.CommandLine.Options
import SiteTree.Build
import SiteTree.Run
import SiteTree.CommandLine.Usage
import SiteTree.Main
import SiteTree.Proofs.Outcome
import SiteTree.Proofs.Path
import SiteTree.Proofs.ScopeId
import SiteTree.Proofs.Text.Blank
import SiteTree.Proofs.Text.Search
import SiteTree.Proofs.Stylesheet.Lexeme
import SiteTree.Proofs.Stylesheet.Nesting
import SiteTree.Proofs.Stylesheet.Selector
import SiteTree.Proofs.Stylesheet.SelectorList
import SiteTree.Proofs.Stylesheet.Sheet
import SiteTree.Proofs.Markup.Attribute
import SiteTree.Proofs.Markup.Document
import SiteTree.Proofs.Markup.Place
import SiteTree.Proofs.Markup.Insertion
import SiteTree.Proofs.Markup.Precedence
import SiteTree.Proofs.Markup.Reading
import SiteTree.Proofs.Markup.Carrying
import SiteTree.Proofs.Component.Resolution
import SiteTree.Proofs.Disk.Directories
import SiteTree.Proofs.Disk.Writes
import SiteTree.Proofs.Disk.Below
import SiteTree.Proofs.Page.CompileCache
import SiteTree.Proofs.Page.Directories
import SiteTree.Proofs.Page.Output
import SiteTree.Proofs.Page.Arena
import SiteTree.Proofs.Page.Visits
import SiteTree.Proofs.Component.Graph
import SiteTree.Proofs.Component.ImportOrder
import SiteTree.Proofs.Page.BundleContents
import SiteTree.Proofs.Disk.Reads
import SiteTree.Proofs.Page.BundleWrites
import SiteTree.Proofs.Page.ScopeCover
import SiteTree.Proofs.Page.ScopeHalves
import SiteTree.Proofs.Page.Amendment
import SiteTree.Proofs.Disk.Tree
import SiteTree.Proofs.Disk.NewDirectories
import SiteTree.Proofs.Disk.Removal
import SiteTree.Proofs.Config.Loading
import SiteTree.Proofs.Build.Step
import SiteTree.Proofs.Config.Cleaning
import SiteTree.Proofs.Config.OutputPlace
import SiteTree.Proofs.Disk.Descent
import SiteTree.Proofs.Disk.Enclosure
import SiteTree.Proofs.Build.Confinement
import SiteTree.Proofs.Build.Effects
import SiteTree.Proofs.Component.Locating
import SiteTree.Proofs.Build.Rebuilding
import SiteTree.Proofs.Build.SinglePage
import SiteTree.Proofs.Stylesheet.Token
import SiteTree.Proofs.Stylesheet.Segment
import SiteTree.Proofs.Stylesheet.Plan
import SiteTree.Proofs.Text.Bytes
import SiteTree.Proofs.Stylesheet.Compound
import SiteTree.Proofs.Stylesheet.Item
import SiteTree.Proofs.Stylesheet.Offset
import SiteTree.Proofs.Stylesheet.OffsetScan
import SiteTree.Proofs.Stylesheet.Trim
import SiteTree.Proofs.Stylesheet.Gap
import SiteTree.Proofs.Stylesheet.TokenCompound
import SiteTree.Proofs.Stylesheet.Comment
import SiteTree.Proofs.Stylesheet.Escape
import SiteTree.Proofs.Stylesheet.EscapedSheet
import SiteTree.Proofs.Markup.OtherAttributes
import SiteTree.Proofs.Markup.ScopedUsage
import SiteTree.Proofs.Page.ImportPermutation
import SiteTree.Proofs.Page.CompileHistory
import SiteTree.Proofs.Component.Unfolding
import SiteTree.Proofs.Component.FirstFault
import SiteTree.Proofs.Page.Faults
import SiteTree.Proofs.Page.Numbering
import SiteTree.Proofs.ScopeId.FirstFree
import SiteTree.Proofs.Disk.Listing
import SiteTree.Proofs.Disk.MissingDirectories
import SiteTree.Proofs.Files.Copying
import SiteTree.Proofs.Files.Mirror
import SiteTree.Proofs.Build.CopiedEntries
import SiteTree.Proofs.Number.Decimal
import SiteTree.Proofs.Number.Span
import SiteTree.Proofs.Number.Shortest
import SiteTree.Proofs.Text.Encoding
import SiteTree.Proofs.Json.Sameness
import SiteTree.Proofs.Json.Strings
import SiteTree.Proofs.Json.Text
import SiteTree.Proofs.Json.Fingerprint
import SiteTree.Proofs.Toml.Document
import SiteTree.Proofs.Config.Values
import SiteTree.Proofs.Page.CacheKeys
