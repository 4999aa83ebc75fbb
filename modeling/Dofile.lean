import Dofile.Main
import Dofile.Proofs.Nesting
import Dofile.Proofs.Discipline
import Dofile.Proofs.Breaks
import Dofile.Proofs.DerivationRules
import Dofile.Proofs.Regions
import Dofile.Proofs.Progress
import Dofile.Proofs.Shape
import Dofile.Proofs.Errors
import Dofile.Proofs.Order
import Dofile.Proofs.Brackets
import Dofile.Proofs.Crossings
import Dofile.Proofs.Partners
import Dofile.Proofs.Position
import Dofile.Proofs.Navigation
import Dofile.Proofs.Plain
import Dofile.Proofs.Programs
import Dofile.Proofs.Unfinished
import Dofile.Proofs.Begins
import Dofile.Proofs.StrayEnd
import Dofile.Proofs.Enclosures
import Dofile.Proofs.Termination
import Dofile.Proofs.Highlights
import Dofile.Proofs.Depths
import Dofile.Proofs.MataForms
import Dofile.Proofs.Balanced
import Dofile.Proofs.Quotes
import Dofile.Proofs.StarComments
import Dofile.Proofs.Touching
import Dofile.Proofs.Colouring
import Dofile.Proofs.BlockEnds
import Dofile.Proofs.Indents
import Dofile.Proofs.CommandNames
import Dofile.Proofs.Number
import Dofile.Proofs.Tokenizer
import Dofile.Proofs.Findings
import Dofile.Proofs.StringEnds
import Dofile.Proofs.OtherRun
import Dofile.Proofs.WordClasses
import Dofile.Proofs.Sizes
import Dofile.Proofs.BlockComments
import Dofile.Proofs.KindSets
import Dofile.Proofs.Drafted
