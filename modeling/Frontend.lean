import Frontend.Lexer.Session
import Frontend.Main
import Frontend.Parser.Session
import Frontend.Proofs.Stream
import Frontend.Proofs.Phrase
import Frontend.Proofs.Soundness
import Frontend.Proofs.Completeness
import Frontend.Proofs.Lexeme
import Frontend.Proofs.Rendering
import Frontend.Proofs.Reparse
import Frontend.Proofs.RoundTrip
import Frontend.Proofs.Dispatch
import Frontend.Proofs.Accounting
import Frontend.Proofs.Sentence
import Frontend.Proofs.Resumption
import Frontend.Proofs.Height
import Frontend.Proofs.Munch
import Frontend.Proofs.Provenance
import Frontend.Proofs.Conservation
import Frontend.Proofs.Limit
import Frontend.Proofs.Positional
import Frontend.Proofs.Passing
import Frontend.Proofs.Morphism
import Frontend.Proofs.Pushback
import Frontend.Proofs.Consumption
import Frontend.Proofs.Newline
import Frontend.Proofs.Layout
import Frontend.Proofs.Warrant
import Frontend.Proofs.Literal
import Frontend.Proofs.Nesting
import Frontend.Proofs.Wording
import Frontend.Proofs.Conduct
