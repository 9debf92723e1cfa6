import ArturoInsight.Catalog.Loading
import ArturoInsight.Main
import ArturoInsight.Proofs.Cursor.Defined
import ArturoInsight.Proofs.Cursor.Definition
import ArturoInsight.Proofs.Cursor.Own
import ArturoInsight.Proofs.Document.SameCode
import ArturoInsight.Proofs.Document.SameFront
import ArturoInsight.Proofs.Layout.Definitions
import ArturoInsight.Proofs.Lexical.Grammar
import ArturoInsight.Proofs.Overlay.Tokens
import ArturoInsight.Proofs.Service.View
import ArturoInsight.Proofs.Settings.Overrides
import ArturoInsight.Proofs.Symbol.Latest
import ArturoInsight.Service.Queries
import ArturoInsight.Proofs.Lint.Operation
import ArturoInsight.Proofs.Lint.Uses
import ArturoInsight.Proofs.Lint.Signs
import ArturoInsight.Proofs.Lint.Mismatch
import ArturoInsight.Proofs.Lint.Stray
import ArturoInsight.Proofs.Lint.Places
import ArturoInsight.Proofs.Cursor.InCode
import ArturoInsight.Proofs.Lexical.Balance
import ArturoInsight.Proofs.Overview.Pairs
import ArturoInsight.Proofs.Overview.Brackets
import ArturoInsight.Proofs.Lexical.Carried
import ArturoInsight.Proofs.Assist.OpenCall
import ArturoInsight.Proofs.Overview.Strings
import ArturoInsight.Proofs.Layout.Indentation
import ArturoInsight.Proofs.Lint.Below
import ArturoInsight.Proofs.Overlay.Hints
import ArturoInsight.Proofs.Symbol.Stripped
import ArturoInsight.Proofs.Constructors
import ArturoInsight.Proofs.Symbol.Parameters
import ArturoInsight.Proofs.Cursor.NewName
import ArturoInsight.Proofs.Settings.Candidates
import ArturoInsight.Proofs.Catalog.Schema
import ArturoInsight.Proofs.Lexical.Typed
import ArturoInsight.Proofs.CommandLine.Status
import ArturoInsight.Proofs.Document.Context
import ArturoInsight.Proofs.Service.Documents
import ArturoInsight.Proofs.Cursor.Touched
import ArturoInsight.Proofs.Symbol.Leftmost
