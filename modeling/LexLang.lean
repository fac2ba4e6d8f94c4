import LexLang.Actor.Turns
import LexLang.Api.AttestationsSince
import LexLang.Api.Cursor
import LexLang.Api.Mirror
import LexLang.Ast.CanonicalFormat
import LexLang.Ast.PrintedOrder
import LexLang.Ast.Transforms
import LexLang.Attest.Arrival
import LexLang.Attest.Decisions
import LexLang.Bytecode.InlineCache
import LexLang.Compiler.NameResolution
import LexLang.Loader.Requests
import LexLang.Machine.Optimise
import LexLang.Pkg.Release
import LexLang.Runtime.FileScopeExact
import LexLang.Store.Batch
import LexLang.Store.Checked
import LexLang.Store.DeltaChain
import LexLang.Store.DepsExact
import LexLang.Store.Gc
import LexLang.Store.Ledger
import LexLang.Store.ManifestMerge
import LexLang.Store.Pins
import LexLang.Store.ResolveManifest
import LexLang.Store.Update
import LexLang.Trace.Replay
import LexLang.Types.Trust
import LexLang.Types.ExhaustiveExact
import LexLang.Types.UnifierSound
import LexLang.Vcs.BodyMerge
import LexLang.Vcs.EffectHistory
import LexLang.Vcs.MergePins
import LexLang.Vcs.MigrateApply
