import SchemaClasses.Main
import SchemaClasses.Document.Printer
import SchemaClasses.Proofs.ClosedLines
import SchemaClasses.Proofs.CanonicalDefinitions
import SchemaClasses.Proofs.Failures
import SchemaClasses.Proofs.Assembly
import SchemaClasses.Proofs.References
import SchemaClasses.Proofs.Literals.Docstrings
import SchemaClasses.Proofs.FieldReferences
import SchemaClasses.Proofs.ImportedNames
import SchemaClasses.Proofs.CommandRuns
import SchemaClasses.Proofs.CamelCase
import SchemaClasses.Proofs.ExposedNames
import SchemaClasses.Proofs.CanonicalParts
import SchemaClasses.Proofs.Printing.Rereading
import SchemaClasses.Proofs.GeneratedClasses
import SchemaClasses.Proofs.KeptRules
import SchemaClasses.Proofs.Deprecations
import SchemaClasses.Proofs.Decimal.Rounding
import SchemaClasses.Proofs.Decimal.Shortest
import SchemaClasses.Proofs.Decimal.ExactNumerals
import SchemaClasses.Proofs.DefaultLiterals
import SchemaClasses.Proofs.Defaults
import SchemaClasses.Proofs.Omissions
import SchemaClasses.Proofs.Sessions
import SchemaClasses.Proofs.Bindings
import SchemaClasses.Proofs.Hygiene
import SchemaClasses.Proofs.WordBoundaries
import SchemaClasses.Proofs.Literals.Quotes
import SchemaClasses.Proofs.WrappedTypes
import SchemaClasses.Proofs.MergeLaws
import SchemaClasses.Proofs.LeftOutTypes
import SchemaClasses.Proofs.ExtraArguments
import SchemaClasses.Proofs.HeaderLines
import SchemaClasses.Proofs.Json.Grammar
import SchemaClasses.Proofs.Utf8
import SchemaClasses.Proofs.Json.Numbers
import SchemaClasses.Proofs.Json.Reading
import SchemaClasses.Proofs.ConfigFiles
import SchemaClasses.Proofs.ConvertedNames
import SchemaClasses.Proofs.UniqueNames
