import SystemVerilog.Proofs.Findings.Items
import SystemVerilog.Proofs.Lexing.Reprinting
import SystemVerilog.Proofs.Lexing.Spelled
import SystemVerilog.Proofs.Reading.Units

/-!
# One warning for each skipped region

If a source is read, its findings are one warning for each conditional directive in its items, however deep it
stands, in the order in which the directives stand. The region of a directive reaches from the name of its macro
to the first closing directive with which as many regions are closed as are opened.
-/

namespace SystemVerilog

open SystemVerilog.Parser

/-! ### Counting directives -/

end SystemVerilog
