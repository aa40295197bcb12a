/-
The UTF-8 form of a text, and positions counted in its bytes.

`utf8Size_append` says that sizes add up, so the offset of a piece is the size of what stands before it.
-/

namespace StubTemplate.Text

/-- the bytes of a text in UTF-8 -/
def utf8 (s : List Char) : List UInt8 :=
  s.flatMap String.utf8EncodeChar

def utf8Size : List Char → Nat
  | [] => 0
  | c :: rest => c.utf8Size + utf8Size rest

@[simp] theorem utf8Size_nil : utf8Size [] = 0 := rfl

@[simp] theorem utf8Size_cons (c : Char) (s : List Char) : utf8Size (c :: s) = c.utf8Size + utf8Size s := rfl

@[simp] theorem utf8Size_append (s t : List Char) : utf8Size (s ++ t) = utf8Size s + utf8Size t := by
  induction s with
  | nil => simp
  | cons c s ih => simp [ih, Nat.add_assoc]

theorem length_utf8 (s : List Char) : (utf8 s).length = utf8Size s := by
  induction s with
  | nil => rfl
  | cons c s ih => simpa [utf8, List.flatMap_cons] using ih

end StubTemplate.Text
