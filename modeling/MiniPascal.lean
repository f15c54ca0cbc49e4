import MiniPascal.Main
import MiniPascal.Proofs.Phrase
import MiniPascal.Proofs.Walk
import MiniPascal.Proofs.Repetition
import MiniPascal.Proofs.Soundness
import MiniPascal.Proofs.Completeness
import MiniPascal.Proofs.Parsing
import MiniPascal.Proofs.Frame
import MiniPascal.Proofs.Resolution
import MiniPascal.Proofs.Spelling
import MiniPascal.Proofs.Assigning
import MiniPascal.Proofs.WholeArithmetic
import MiniPascal.Proofs.Height
import MiniPascal.Proofs.Execution
import MiniPascal.Proofs.Protection
import MiniPascal.Proofs.Place
import MiniPascal.Proofs.Pattern
import MiniPascal.Proofs.Tokenization
import MiniPascal.Proofs.Landmarks
import MiniPascal.Proofs.Blame
import MiniPascal.Proofs.Online
import MiniPascal.Proofs.Viability
import MiniPascal.Proofs.EarliestError
import MiniPascal.Proofs.Session
import MiniPascal.Proofs.Reuse
import MiniPascal.Proofs.Blind
import MiniPascal.Proofs.Relayout
import MiniPascal.Proofs.Rendering
import MiniPascal.Proofs.RoundTrip
import MiniPascal.Proofs.Enclosure
import MiniPascal.Proofs.Listing
import MiniPascal.Proofs.Visit
import MiniPascal.Proofs.Printing
import MiniPascal.Proofs.Record
import MiniPascal.Proofs.Script
import MiniPascal.Proofs.Balance
import MiniPascal.Proofs.Readahead
import MiniPascal.Proofs.Logbook
import MiniPascal.Proofs.Resuming
import MiniPascal.Proofs.Asking
import MiniPascal.Proofs.Exactness
import MiniPascal.Proofs.FlatChain
import MiniPascal.Proofs.FlatSource
import MiniPascal.Proofs.ValueKinds
import MiniPascal.Proofs.Footprint
import MiniPascal.Proofs.Inertness
import MiniPascal.Proofs.Renaming
import MiniPascal.Proofs.ByteOrder
import MiniPascal.Proofs.Unordered
import MiniPascal.Proofs.UnorderedTable
import MiniPascal.Proofs.Decoding
import MiniPascal.Proofs.Interval
import MiniPascal.Proofs.ShortestDecimal
import MiniPascal.Proofs.Numeral
import MiniPascal.Proofs.Unambiguous
import MiniPascal.Proofs.Wording
