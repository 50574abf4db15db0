import Scomp.Commons
import Scomp.Json.Base
import Scomp.DataStructures.FixedStack
import Scomp.Json.Grammar
import Scomp.Json.Acceptance
import Scomp.Json.StateMachineSafety
import Scomp.Lib.Bits
import Scomp.DataStructures.Buffer
import Scomp.DataStructures.Queue
import Scomp.DataStructures.Reader
import Scomp.DataStructures.ReaderFacts
import Scomp.DataStructures.ReaderDelivery
import Scomp.DataStructures.ReaderRun
import Scomp.DataStructures.ReaderSnapshot
import Scomp.DataStructures.ReaderBytes
import Scomp.Json.Tokenizer
import Scomp.Json.Scanner
import Scomp.Json.TokenizerFacts
import Scomp.DataStructures.Writer
import Scomp.DataStructures.WriterFacts
import Scomp.DataStructures.WriterRun
import Scomp.Json.Detokenizer
import Scomp.Json.Reprint
import Scomp.Json.Chunking
import Scomp.Lib.Fenwick
import Scomp.DataStructures.FenwickTree
import Scomp.ArithmeticCoding.FrequencyTable
import Scomp.Lib.CeilHalving
import Scomp.ArithmeticCoding.TableHalving
import Scomp.Lib.IntervalCoding
import Scomp.ArithmeticCoding.State
import Scomp.ArithmeticCoding.Encoder
import Scomp.ArithmeticCoding.Decoder
import Scomp.ArithmeticCoding.RoundTrip
import Scomp.DataStructures.HashChain
import Scomp.DataStructures.RingBuffer
import Scomp.Lib.Window
import Scomp.ArithmeticCoding.SymbolCoder
import Scomp.ArithmeticCoding.UintCoding
import Scomp.StringCompression.Base
import Scomp.StringCompression.StringCompressor
import Scomp.StringCompression.StringDecompressor
import Scomp.StringCompression.RoundTrip
import Scomp.StringCompression.ByteStreamMatcher
import Scomp.Json.CompressionBase
import Scomp.Json.Compressor
import Scomp.Json.Decompressor
import Scomp.Json.WellFormed
import Scomp.Json.Lockstep
import Scomp.Json.Emission
import Scomp.ArithmeticCoding.TableRuns
import Scomp.ArithmeticCoding.Precision
import Scomp.ArithmeticCoding.UintRange
import Scomp.ArithmeticCoding.DecoderSafety
import Scomp.ArithmeticCoding.DecoderProgress
import Scomp.Lib.Until
import Scomp.Lib.While
import Scomp.Lib.Bisection
import Scomp.Lib.AsymmetricNumerals
import Scomp.AsymmetricalNumericSystem.AnsEncoder
import Scomp.AsymmetricalNumericSystem.AnsRoundTrip
import Scomp.AsymmetricalNumericSystem.SymbolSearch
import Scomp.ArithmeticCoding.SafeReads
import Scomp.StringCompression.DecompressorSafety
import Scomp.Json.DecompressorSafety
import Scomp.DataStructures.FixedArrayList
import Scomp.DataStructures.LmQueue
import Scomp.DataStructures.FixedPool
import Scomp.Json.ShapesRepository
import Scomp.Json.ShapesRepositoryFacts
import Scomp.Json.ShapesConservation
import Scomp.Json.ShapesCache
import Scomp.Json.ShapesKeys
import Scomp.Json.ShapesKeysRun
import Scomp.Json.DocumentRun
import Scomp.Json.RoundTrip
import Scomp.Json.Documents
import Scomp.Json.Termination
import Scomp.DataStructures.FenwickArray
import Scomp.DataStructures.QueueArray
import Scomp.Lib.DoublyLinked
import Scomp.DataStructures.FixedArrayListOrder
import Scomp.DataStructures.FixedArrayListRun
import Scomp.DataStructures.LmQueuePolicy
import Scomp.Lib.WindowChain
import Scomp.StringCompression.FoundMatch
import Scomp.StringCompression.MatchChain
import Scomp.Json.Digits
import Scomp.Json.NumberText
import Scomp.Json.TokenLength
import Scomp.Json.Retokenize
import Scomp.ArithmeticCoding.MoreInput
import Scomp.Json.DecompressorAlike
import Scomp.Json.Streams
import Scomp.Json.DecompressorStreaming
import Scomp.ArithmeticCoding.EncoderDraining
import Scomp.Json.CompressorStreaming
import Scomp.Json.Streaming
import Scomp.Lib.CodeLength
import Scomp.ArithmeticCoding.OutputLength
import Scomp.Json.DocumentsLossless
import Scomp.Json.Lexemes
import Scomp.Json.DocumentGrammar
import Scomp.Lib.AdaptiveCode
import Scomp.ArithmeticCoding.AdaptiveLength
import Scomp.DataStructures.WriterMemory
import Scomp.DataStructures.WriterFailure
import Scomp.Json.DocumentsWhole
import Scomp.ArithmeticCoding.StaticTable
import Scomp.AsymmetricalNumericSystem.AnsLength
import Scomp.Json.CodedTables
import Scomp.Json.CompressedLength
import Scomp.Json.DocumentTokens
import Scomp.Lib.Simulation
import Scomp.DataStructures.FixedQueue
import Scomp.DataStructures.StackArray
import Scomp.DataStructures.Arena
import Scomp.DataStructures.ReaderMemory
import Scomp.DataStructures.ReaderFailure
import Scomp.DataStructures.FixedPoolRun
import Scomp.Utf8
