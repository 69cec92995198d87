import Lzvn.Core.Loop
import Lzvn.Core.Selection
import Lzvn.Core.Lz77
import Lzvn.Core.Parse
import Lzvn.Core.Runs
import Lzvn.Core.Reach
import Lzvn.Core.Maintains
import Lzvn.Core.Carries
import Lzvn.Core.Machine
import Lzvn.Core.LittleEndian
import Lzvn.Core.OffsetTable
import Lzvn.Error
import Lzvn.Stream
import Lzvn.StreamEncoder
import Lzvn.Raw.Opcode
import Lzvn.Raw.Decode
import Lzvn.Raw.Grammar
import Lzvn.Raw.DecodeGrammar
import Lzvn.Raw.Verdict
import Lzvn.Raw.Truncation
import Lzvn.Raw.MatchFinder
import Lzvn.Raw.BestMatch
import Lzvn.Raw.Encode
import Lzvn.Raw.RoundTrip
import Lzvn.Raw.Concat
import Lzvn.Raw.HashTable
import Lzvn.Raw.Parse
import Lzvn.Raw.Expansion
import Lzvn.Raw.RunLength
import Lzvn.Raw.Emission
import Lzvn.Raw.Stream
import Lzvn.Raw.StreamRound
import Lzvn.Raw.StreamStep
import Lzvn.Raw.StreamRuns
import Lzvn.Raw.StreamSafety
import Lzvn.Raw.StreamCompaction
import Lzvn.Raw.StreamProgress
import Lzvn.Raw.StreamAgrees
import Lzvn.Raw.StreamErrors
import Lzvn.Raw.StreamReply
import Lzvn.Raw.StreamWindow
import Lzvn.Raw.Ratio
import Lzvn.Apple.Bvxn
import Lzvn.Apple.BvxnGrammar
import Lzvn.Apple.BvxnVerdict
import Lzvn.Apple.BvxnFraming
import Lzvn.Apple.Encoders
import Lzvn.Apple.BvxnStep
import Lzvn.Apple.BvxnRuns
import Lzvn.Apple.BvxnSafety
import Lzvn.Apple.Progress
import Lzvn.Apple.BvxnErrors
import Lzvn.Apple.BvxnReply
import Lzvn.Apple.BvxnStream
import Lzvn.Apple.ExactFit
import Lzvn.Apple.Decmpfs
import Lzvn.Apple.DecmpfsGrammar
import Lzvn.Apple.DecmpfsLayout
import Lzvn.Apple.DecmpfsVerdict
import Lzvn.Apple.DecmpfsRoundTrip
import Lzvn.Apple.DecmpfsForks
import Lzvn.Apple.Buffers
import Lzvn.Apple.Panics
import Lzvn.Fuzz
import Lzvn.EncoderRuns
import Lzvn.Apple.StreamBuffers
import Lzvn.Pipeline
import Lzvn.Proptest
