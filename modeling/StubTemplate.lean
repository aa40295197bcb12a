import StubTemplate.Json.Printer
import StubTemplate.Main
import StubTemplate.Value.Equality
import StubTemplate.Proofs.Literals
import StubTemplate.Proofs.Spelling
import StubTemplate.Proofs.Bytes
import StubTemplate.Proofs.Grammar
import StubTemplate.Proofs.Replacement
import StubTemplate.Proofs.Substitution
import StubTemplate.Proofs.Survival
import StubTemplate.Proofs.StringEnds
import StubTemplate.Proofs.Delivery
import StubTemplate.Proofs.QueryDecoding
import StubTemplate.Proofs.QueryRestoring
import StubTemplate.Proofs.Calls
import StubTemplate.Proofs.Keys
import StubTemplate.Proofs.Filling
import StubTemplate.Proofs.Steps
import StubTemplate.Proofs.Registration
import StubTemplate.Proofs.Indices
import StubTemplate.Proofs.QueryMeaning
import StubTemplate.Proofs.SingleEquals
import StubTemplate.Proofs.Searching
import StubTemplate.Proofs.Assignment
import StubTemplate.Proofs.Repetition
import StubTemplate.Proofs.Rounding
import StubTemplate.Proofs.Numerals
import StubTemplate.Proofs.NumberScalars
import StubTemplate.Proofs.Words
import StubTemplate.Proofs.SameValues
import StubTemplate.Proofs.Disabling
import StubTemplate.Proofs.ShortestDecimals
import StubTemplate.Proofs.Layouts
import StubTemplate.Proofs.FloatTexts
import StubTemplate.Proofs.Slices
import StubTemplate.Proofs.PlaceholderOffsets
import StubTemplate.Proofs.SelfDelimiting
import StubTemplate.Proofs.TopLevelOffsets
import StubTemplate.Proofs.NumeralOffsets
import StubTemplate.Proofs.ArgumentOffsets
import StubTemplate.Proofs.SafeSlices
