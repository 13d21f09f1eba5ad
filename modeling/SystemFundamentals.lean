import SystemFundamentals.Library.Transition
import SystemFundamentals.Library.Unicode
import SystemFundamentals.Library.Ring
import SystemFundamentals.Library.LittleEndian
import SystemFundamentals.Library.LinkedList
import SystemFundamentals.Library.Tally
import SystemFundamentals.Cream.FiniteMap
import SystemFundamentals.Cream.KeyIdentity
import SystemFundamentals.Cream.ReaderWriter
import SystemFundamentals.Cream.Worker
import SystemFundamentals.Cream.Queue
import SystemFundamentals.Cream.Pool
import SystemFundamentals.Cream.CallCases
import SystemFundamentals.Cream.Lookup
import SystemFundamentals.Cream.LiveSlots
import SystemFundamentals.Cream.ForcedPut
import SystemFundamentals.Cream.Destructor
import SystemFundamentals.Cream.Insertions
import SystemFundamentals.Cream.QueueInvalidation
import SystemFundamentals.Cipher.PolybiusRoundTrip
import SystemFundamentals.Cipher.MorseRoundTrip
import SystemFundamentals.Cipher.TableContract
import SystemFundamentals.Cipher.Usage
import SystemFundamentals.Cipher.CommandLines
import SystemFundamentals.Utf.SelfDescribing
import SystemFundamentals.Utf.FromUtf16
import SystemFundamentals.Utf.FromUtf8
import SystemFundamentals.Utf.ByteSwap
import SystemFundamentals.Utf.TwoPaths
import SystemFundamentals.Utf.CutOff
import SystemFundamentals.Sfish.JobRemoval
import SystemFundamentals.Sfish.DirectoryRuns
import SystemFundamentals.Sfmm.ReallocContract
import SystemFundamentals.Sfmm.Steady
import SystemFundamentals.Sfmm.Runs
import SystemFundamentals.Sfmm.RunContract
import SystemFundamentals.Sfmm.FreeContract
import SystemFundamentals.Sfmm.Split
import SystemFundamentals.Cipher.MorseLines
import SystemFundamentals.Cipher.TableWrites
import SystemFundamentals.Cipher.Bounds
import SystemFundamentals.Cipher.MorseBuffer
import SystemFundamentals.Library.Stream
import SystemFundamentals.Library.Tokens
import SystemFundamentals.Csapp.Rio
import SystemFundamentals.Cream.Connection
import SystemFundamentals.Sfish.Pipeline
import SystemFundamentals.Sfish.CommandLine
import SystemFundamentals.Sfish.PipelineText
import SystemFundamentals.Utf.Chains
import SystemFundamentals.Cream.Service
import SystemFundamentals.Sfmm.Misuse
import SystemFundamentals.Cipher.MorseTexts
import SystemFundamentals.Cipher.Program
import SystemFundamentals.Sfish.Suspension
