import QuickJsKmp.Value
import QuickJsKmp.Lib.Lookups
import QuickJsKmp.Slots
import QuickJsKmp.Refs
import QuickJsKmp.Lib.Machine
import QuickJsKmp.Interrupt
import QuickJsKmp.Runtime
import QuickJsKmp.Lib.Recorded
import QuickJsKmp.Finish
import QuickJsKmp.FinishLaws
import QuickJsKmp.Microtasks
import QuickJsKmp.Payload
import QuickJsKmp.Lib.Fallible
import QuickJsKmp.Bytecode
import QuickJsKmp.Modules
import QuickJsKmp.ModuleLaws
import QuickJsKmp.Traces
import QuickJsKmp.Resolution
import QuickJsKmp.Retry
import QuickJsKmp.Registration
import QuickJsKmp.Names
import QuickJsKmp.Loader
import QuickJsKmp.Anonymous
import QuickJsKmp.Lib.CodePoints
import QuickJsKmp.Wtf8
import QuickJsKmp.CStrings
import QuickJsKmp.Echo
import QuickJsKmp.Selection
import QuickJsKmp.Lib.Hands
import QuickJsKmp.Ledger
import QuickJsKmp.Entries
import QuickJsKmp.Balance
import QuickJsKmp.BalanceLaws
import QuickJsKmp.EntryLaws
import QuickJsKmp.Lifetime
import QuickJsKmp.Accounts
import QuickJsKmp.Rejections
import QuickJsKmp.Lib.Parties
import QuickJsKmp.Handshake
import QuickJsKmp.Lib.Line
import QuickJsKmp.Callers
import QuickJsKmp.Shutdown
import QuickJsKmp.Crossing
import QuickJsKmp.Lib.Reactions
import QuickJsKmp.Discarding
import QuickJsKmp.Ending
import QuickJsKmp.Counts
import QuickJsKmp.Handles
import QuickJsKmp.Roles
import QuickJsKmp.Dispatch
import QuickJsKmp.Reentry
import QuickJsKmp.ArrayBuffers
import QuickJsKmp.Binary
import QuickJsKmp.Recycling
import QuickJsKmp.Lasting
import QuickJsKmp.BigIntText
import QuickJsKmp.KmpBuf
import QuickJsKmp.Header
import QuickJsKmp.Decoders
import QuickJsKmp.Serialization
import QuickJsKmp.EvaluateAs
import QuickJsKmp.PublishedText
import QuickJsKmp.Attribution
import QuickJsKmp.MemoryLimit
import QuickJsKmp.Lib.Incidence
import QuickJsKmp.Collector
import QuickJsKmp.CollectorLaws
import QuickJsKmp.Freeing
import QuickJsKmp.Cycles
import QuickJsKmp.Collection
import QuickJsKmp.CollectorRuns
import QuickJsKmp.Lib.Codec
import QuickJsKmp.Lib.LittleEndian
import QuickJsKmp.ObjectFormat
import QuickJsKmp.ObjectParts
import QuickJsKmp.BigIntFormat
import QuickJsKmp.ObjectTables
import QuickJsKmp.RoundTrip
import QuickJsKmp.Rewriting
