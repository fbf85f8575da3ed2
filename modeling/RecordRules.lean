import RecordRules.Json.Document
import RecordRules.Record.Random
import RecordRules.Repository.Fill
import RecordRules.Repository.Run
import RecordRules.Proofs.Grammar
import RecordRules.Proofs.Grammar.Lexemes
import RecordRules.Proofs.Grammar.Literals
import RecordRules.Proofs.Grammar.Chains
import RecordRules.Proofs.Grammar.Reading
import RecordRules.Proofs.Grammar.Rendering
import RecordRules.Proofs.Grammar.Nesting
import RecordRules.Proofs.Grammar.RoundTrip
import RecordRules.Proofs.Grammar.Depth
import RecordRules.Proofs.Grammar.Locality
import RecordRules.Proofs.Grammar.Composition
import RecordRules.Proofs.Grammar.Reloading
import RecordRules.Proofs.Grammar.Completion
import RecordRules.Proofs.Grammar.Tokens
import RecordRules.Proofs.Grammar.Lookahead
import RecordRules.Proofs.Grammar.Stopping
import RecordRules.Proofs.Grammar.ErrorPlace
import RecordRules.Proofs.Grammar.Openers
import RecordRules.Proofs.Connective
import RecordRules.Proofs.Evaluation
import RecordRules.Proofs.NormalForm
import RecordRules.Proofs.Random.Draw
import RecordRules.Proofs.Random.Rule
import RecordRules.Proofs.Random.Nesting
import RecordRules.Proofs.Schema
import RecordRules.Proofs.Typing
import RecordRules.Proofs.Checking
import RecordRules.Proofs.Repository.Listing
import RecordRules.Proofs.Repository.Table
import RecordRules.Proofs.Repository.Refinement
import RecordRules.Proofs.Repository.Store
import RecordRules.Proofs.Repository.Survey
import RecordRules.Proofs.Repository.Modes
import RecordRules.Proofs.Repository.Stored
import RecordRules.Proofs.Repository.Passes
import RecordRules.Proofs.Repository.History
import RecordRules.Proofs.Repository.Interleaving
import RecordRules.Proofs.Random.Record
import RecordRules.Proofs.Dependence
import RecordRules.Proofs.Extension
import RecordRules.Proofs.Algebra
import RecordRules.Proofs.Spelling
import RecordRules.Proofs.Leaves
import RecordRules.Proofs.Repository.Run
import RecordRules.Proofs.Random.Redraw
import RecordRules.Proofs.Schema.Faults
import RecordRules.Proofs.Repository.Fill
import RecordRules.Proofs.Grammar.Height
import RecordRules.Proofs.Grammar.Strings
import RecordRules.Proofs.Grammar.Names
import RecordRules.Proofs.Json.Lexemes
import RecordRules.Proofs.Json.RoundTrip
import RecordRules.Proofs.Json.Fields
