import RegisterJit.Script.World

/-!
# Constants of a code

Before a code is compiled its literals become values.

Literals that are texts are interned, so equal literals of different codes are the same word. What a
literal becomes is fixed when its code is compiled and is kept with the code.
-/

namespace RegisterJit.Run

/-- The value of a literal; kinds without a meaning have none. -/
def boxConstant (k : Constant) : Run (Option Value) := do
  if k.kind = Constant.kindNumber then return some (Value.number k.number)
  else if k.kind = Constant.kindString then return some (← intern k.text)
  else if k.kind = Constant.kindUndefined then return some Value.undefined
  else if k.kind = Constant.kindNull then return some Value.null
  else if k.kind = Constant.kindBool then
    return some (Value.ofBool !(k.number.eq Double.zero))
  else return none

/-- The values of literals, after those in `pool`. -/
def boxConstants : (pool : Array Value) → List Constant → Run (Array Value)
  | pool, [] => return pool
  | pool, k :: rest => do
    match ← boxConstant k with
    | some v => boxConstants (pool.push v) rest
    | none =>
      throw (.failure (Text.ofString "constant " ++ Text.ofNat pool.size ++
        Text.ofString ": unknown kind " ++ Text.ofNat k.kind.toNat))

/-- The values of a code's literals. -/
def prepare (c : Code) : Run (Array Value) := boxConstants #[] c.constants.toList

end RegisterJit.Run
