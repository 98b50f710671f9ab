import EsmLift.Console.Standard
import EsmLift.Diagnostics
import EsmLift.Validation.Standard

/-!
# `Standard` — what the program is run with
-/

namespace EsmLift

/-- The console with markup, and the lenient checks. -/
def Services.standard : Services := ⟨.standard, .standard⟩

end EsmLift
