import Grayscale.Codegen.CallArgumentsSound
import Grayscale.Codegen.DeepCopySound
import Grayscale.Codegen.DeferredCallsSound
import Grayscale.Codegen.IterationGuardsSound
import Grayscale.Codegen.RangeLoops
import Grayscale.Codegen.StringLiteralsRead
import Grayscale.Codegen.TypeDefinitions
import Grayscale.Codegen.ZeroValuesSound
import Grayscale.Format.Idempotence
import Grayscale.Parser.Attributes
import Grayscale.Parser.Defines
import Grayscale.Parser.IntegerLiterals
import Grayscale.Parser.Interpolation
import Grayscale.Parser.NameGroups
import Grayscale.Runtime.Arena
import Grayscale.Runtime.WideDivision
import Grayscale.Runtime.WideShifts
import Grayscale.Stdlib.AddMonths
import Grayscale.Stdlib.ArrayDeduplicate
import Grayscale.Stdlib.ArraySortLaws
import Grayscale.Stdlib.ChannelSignals
import Grayscale.Stdlib.CharStarts
import Grayscale.Stdlib.CryptoLaws
import Grayscale.Stdlib.CsvMaps
import Grayscale.Stdlib.Durations
import Grayscale.Stdlib.HtmlEscape
import Grayscale.Stdlib.HttpRequestLaws
import Grayscale.Stdlib.JsonArrays
import Grayscale.Stdlib.JsonSizes
import Grayscale.Stdlib.Math
import Grayscale.Stdlib.RegexEscape
import Grayscale.Stdlib.RegexLoops
import Grayscale.Stdlib.RelativePaths
import Grayscale.Stdlib.Routing
import Grayscale.Stdlib.ShellEscape
import Grayscale.Stdlib.StrconvBases
import Grayscale.Stdlib.StringBuilders
import Grayscale.Stdlib.StringCasts
import Grayscale.Stdlib.StringQuoting
import Grayscale.Stdlib.UrlEncoding
import Grayscale.Stdlib.WordCase
import Grayscale.Stdlib.Binary
import Grayscale.Stdlib.Padding
import Grayscale.Stdlib.ServerResponse
import Grayscale.Typechecker.AliasErasure
import Grayscale.Typechecker.ArenaDestroysSound
import Grayscale.Typechecker.ArenaSound
import Grayscale.Typechecker.CaseKeys
import Grayscale.Typechecker.CopyElisionSound
import Grayscale.Typechecker.InstantiationsComplete
import Grayscale.Typechecker.LocalInitializers
import Grayscale.Typechecker.ModuleTable
import Grayscale.Typechecker.QualifiedTypes
import Grayscale.Typechecker.ReturnsSound
import Grayscale.Typechecker.WhenRanges
