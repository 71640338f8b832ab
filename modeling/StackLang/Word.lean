import StackLang.Word.Control
import StackLang.Word.Defining
import StackLang.Word.Memory
import StackLang.Word.Output
import StackLang.Word.Stack

/-!
# Running a built-in word
-/

namespace StackLang

/-- What a built-in word does. -/
def Builtin.run : Builtin → Action Unit
  | stack w => Action.operands w.run
  | returns w => w.run
  | math w => Action.operands w.run
  | memory w => w.run
  | defining w => w.run
  | control w => w.run
  | output w => w.run

end StackLang
