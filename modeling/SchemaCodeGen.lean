import SchemaCodeGen.CsvText
import SchemaCodeGen.Rows
import SchemaCodeGen.Equality
import SchemaCodeGen.Conformance
import SchemaCodeGen.Arrays
import SchemaCodeGen.Maps
import SchemaCodeGen.Optionals
import SchemaCodeGen.EnumMembers
import SchemaCodeGen.KnownKeys
import SchemaCodeGen.Descriptions
import SchemaCodeGen.Agreement
import SchemaCodeGen.NamedKeys
import SchemaCodeGen.EnumCodec
import SchemaCodeGen.EnumBackends
import SchemaCodeGen.PythonData
import SchemaCodeGen.OutputFiles
import SchemaCodeGen.Defaults
import SchemaCodeGen.Marks
import SchemaCodeGen.PythonWalk
import SchemaCodeGen.Reflection
import SchemaCodeGen.Strays
import SchemaCodeGen.Children
import SchemaCodeGen.TwoFiles
import SchemaCodeGen.PodGets
import SchemaCodeGen.PythonInit
import SchemaCodeGen.RowBuffer
import SchemaCodeGen.PrintCode
import SchemaCodeGen.MemberRow
import SchemaCodeGen.NumberTexts
import SchemaCodeGen.FloatMembers
import SchemaCodeGen.TextDefaults
import SchemaCodeGen.NumberDefaults
import SchemaCodeGen.StringHelper
import SchemaCodeGen.ThreeNumbers
import SchemaCodeGen.PodRuns
import SchemaCodeGen.PythonSlices
import SchemaCodeGen.CaseSearch
import SchemaCodeGen.EachNumber
import SchemaCodeGen.HexReaders
import SchemaCodeGen.VectorReaders
import SchemaCodeGen.ClassTexts
import SchemaCodeGen.Jeaiii
import SchemaCodeGen.GeneratorRuns
import SchemaCodeGen.ImplementationBrackets
