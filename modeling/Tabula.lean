import Tabula.Binary64.Basic
import Tabula.Binary64.Round
import Tabula.Binary64.Bits
import Tabula.Binary64.Arith
import Tabula.FixedPoint
import Tabula.Binary64.Elementary
import Tabula.Decimal.Scientific
import Tabula.Decimal.Rounded
import Tabula.Decimal.Shortest
import Tabula.Numeral
import Tabula.NumberText
import Tabula.Text.Printable
import Tabula.Text.Quoted
import Tabula.Value
import Tabula.Error
import Tabula.Update
import Tabula.Coercion
import Tabula.Key
import Tabula.Key.Order
import Tabula.Table
import Tabula.Heap
import Tabula.Fallback
import Tabula.Traversal
import Tabula.Argument
import Tabula.Random.Source
import Tabula.Random.Generator
import Tabula.Random.Interval
import Tabula.Random
import Tabula.Machine
import Tabula.Standard
import Tabula.Call
import Tabula.Registry
import Tabula.Config
import Tabula.Session
import Tabula.Toml.Text
import Tabula.Toml.Number
import Tabula.Toml.Value
import Tabula.Toml.Document
import Tabula.Config.Text
import Tabula.Proofs.Chain
import Tabula.Proofs.Entries
import Tabula.Proofs.HeapRun
import Tabula.Proofs.Links
import Tabula.Proofs.KeyEquality
import Tabula.Proofs.Lookup
import Tabula.Proofs.Inheritance
import Tabula.Proofs.RegistryRun
import Tabula.Proofs.Binding
import Tabula.Proofs.Exactness
import Tabula.Proofs.FiniteMap
import Tabula.Proofs.Enumeration
import Tabula.Proofs.Interleaving
import Tabula.Proofs.Rounding
import Tabula.Proofs.NumeralGrammar
import Tabula.Proofs.NumeralValue
import Tabula.Proofs.Hexadecimal
import Tabula.Proofs.DecimalText
import Tabula.Proofs.ReadBack
import Tabula.Proofs.RandomStreams
import Tabula.Proofs.Sequence
import Tabula.Proofs.Relinking
import Tabula.Proofs.GeneralNotation
import Tabula.Proofs.SequenceCourse
import Tabula.Proofs.Nearest
import Tabula.Proofs.IntegerNumbers
import Tabula.Proofs.Modulo
import Tabula.Proofs.Arguments
import Tabula.Proofs.RandomRequests
import Tabula.Proofs.Sampling
import Tabula.Proofs.RandomRange
import Tabula.Proofs.Differences
import Tabula.Proofs.ModuloSign
import Tabula.Proofs.KeyConversion
import Tabula.Proofs.Capture
import Tabula.Proofs.Extremes
import Tabula.Proofs.TomlSection
import Tabula.Proofs.SettingsText
import Tabula.Proofs.StepwiseText
