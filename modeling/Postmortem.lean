import Postmortem.CfiCache.Reader
import Postmortem.CfiCache.Writer
import Postmortem.Crash.Stored
import Postmortem.Debug.FunctionBuilder
import Postmortem.Json.Text
import Postmortem.Leb128
import Postmortem.Proofs.CfiCache.CacheLayout
import Postmortem.Proofs.CfiCache.CorruptEntries
import Postmortem.Proofs.CfiCache.EntryBounds
import Postmortem.Proofs.CfiCache.NamedRules
import Postmortem.Proofs.CfiCache.NormalTexts
import Postmortem.Proofs.CfiCache.RowLookups
import Postmortem.Proofs.ClaimShares
import Postmortem.Proofs.Crash.BuildTexts
import Postmortem.Proofs.Crash.StackFrames
import Postmortem.Proofs.Crash.StackPointers
import Postmortem.Proofs.Crash.StoredStates
import Postmortem.Proofs.Crash.StrategyOrder
import Postmortem.Proofs.Crash.UnwoundRegisters
import Postmortem.Proofs.Debug.CallSites
import Postmortem.Proofs.Debug.CallerDepths
import Postmortem.Proofs.Debug.SymbolMaps
import Postmortem.Proofs.MemoryWords
import Postmortem.Proofs.NormalizedIds
import Postmortem.Proofs.PostfixRecovery
import Postmortem.Proofs.PostfixRoundTrips
import Postmortem.Proofs.StringRuns
import Postmortem.Proofs.SymCache.AddressReach
import Postmortem.Proofs.SymCache.CorruptLookups
import Postmortem.Proofs.SymCache.Listings
import Postmortem.Proofs.SymCache.LocationAddresses
import Postmortem.Proofs.SymCache.PushedLines
import Postmortem.Proofs.SymCache.RefusedItems
import Postmortem.Proofs.SymCache.SourcePaths
import Postmortem.Proofs.SymCache.SpareBytes
import Postmortem.Proofs.SymCache.WrittenLayout
import Postmortem.Proofs.VarIntRuns
import Postmortem.Session.Calls
import Postmortem.SymCache.Lookup
import Postmortem.SymCache.Writer
