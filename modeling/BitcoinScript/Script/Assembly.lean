/-
The text of a script: the names of its opcodes, each push followed by its data, with single spaces between. A cut script
has a text too, which says what is missing.
-/
import BitcoinScript.Hex
import BitcoinScript.Script.Token

namespace BitcoinScript.Assembly

/-- the text of a token, after a space if it is not the first -/
def word (first : Bool) (token : Token) : String :=
  let space := if first then "" else " "
  match token with
  | .single op => space ++ op.leadName
  | .push op _ [] => space ++ op.leadName
  | .push op _ data => space ++ op.leadName ++ " " ++ Hex.encode data
  | .cutData op => space ++ op.leadName ++ " <push past end>"
  | .cutLength _ => "<unexpected end>"

/-- the words of a list of tokens -/
def words : List Token → List String
  | [] => []
  | token :: tokens => word true token :: tokens.map (word false)

/-- the text of a script -/
def text (script : Bytes) : String :=
  String.join (words (Token.scan script))

end BitcoinScript.Assembly
