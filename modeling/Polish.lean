import Polish.Main
import Polish.Reader
import Polish.Proofs.Acceptance
import Polish.Proofs.Lookahead
import Polish.Proofs.Unexpected
import Polish.Proofs.Independence
import Polish.Proofs.Truncation
import Polish.Proofs.Survival
import Polish.Proofs.Composition
import Polish.Proofs.Calls
import Polish.Proofs.Place
import Polish.Proofs.Extension
import Polish.Proofs.Printing
import Polish.Proofs.Reprinting
import Polish.Proofs.Decoding
import Polish.Proofs.Replacement
import Polish.Proofs.Folding
import Polish.Proofs.Limits
import Polish.Proofs.Caret
import Polish.Proofs.Spans
import Polish.Proofs.Readable
import Polish.Proofs.Conservation
import Polish.Proofs.Concatenation
import Polish.Proofs.Layout
import Polish.Proofs.Numerals
import Polish.Proofs.Jumps
import Polish.Proofs.Groups
import Polish.Proofs.Grouping
import Polish.Proofs.Encoding
import Polish.Proofs.Endings
import Polish.Proofs.Labels
import Polish.Proofs.Records
import Polish.Proofs.Offsets
