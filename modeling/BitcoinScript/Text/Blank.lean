/-
Blank space at the ends of a text. A character is blank if it has the Unicode property White_Space, which includes the
no-break spaces and the ideographic space beside the ASCII ones.
-/

namespace BitcoinScript.Text

/-- the code points with the property White_Space, as inclusive ranges -/
def blankRanges : List (Nat × Nat) :=
  [(0x09, 0x0d), (0x20, 0x20), (0x85, 0x85), (0xa0, 0xa0), (0x1680, 0x1680), (0x2000, 0x200a), (0x2028, 0x2029),
    (0x202f, 0x202f), (0x205f, 0x205f), (0x3000, 0x3000)]

/-- whether a character is blank -/
def isBlank (c : Char) : Bool :=
  blankRanges.any fun (low, high) => low ≤ c.toNat && c.toNat ≤ high

/-- a text without the blank characters at its two ends -/
def trim (text : String) : String :=
  String.ofList ((text.toList.dropWhile isBlank).reverse.dropWhile isBlank).reverse

theorem dropWhile_text {text : List Char} (htext : ∀ c ∈ text, isBlank c = false) (hne : text ≠ [])
    (rest : List Char) :
    (text ++ rest).dropWhile isBlank = text ++ rest := by
  obtain ⟨c, text, rfl⟩ := List.exists_cons_of_ne_nil hne
  exact List.dropWhile_cons_of_neg (Bool.eq_false_iff.1 (htext c List.mem_cons_self))

/-- blanks at the two ends are taken off, and nothing else -/
theorem trim_ofList {lead text trail : List Char} (hlead : ∀ c ∈ lead, isBlank c = true)
    (htext : ∀ c ∈ text, isBlank c = false) (htrail : ∀ c ∈ trail, isBlank c = true) :
    trim (String.ofList (lead ++ text ++ trail)) = String.ofList text := by
  have hreverse : ∀ c ∈ trail.reverse, isBlank c = true := fun c hc => htrail c (List.mem_reverse.1 hc)
  rw [trim, String.toList_ofList, List.append_assoc, List.dropWhile_append_of_pos hlead]
  by_cases hne : text = []
  · have hnone : (trail ++ []).dropWhile isBlank = [] := List.dropWhile_append_of_pos htrail
    rw [List.append_nil] at hnone
    rw [hne, List.nil_append, hnone]
    rfl
  · have htext' : ∀ c ∈ text.reverse, isBlank c = false := fun c hc => htext c (List.mem_reverse.1 hc)
    have hkept := dropWhile_text htext' (fun h => hne (List.reverse_eq_nil_iff.1 h)) []
    rw [List.append_nil] at hkept
    rw [dropWhile_text htext hne, List.reverse_append, List.dropWhile_append_of_pos hreverse, hkept,
      List.reverse_reverse]

theorem isBlank_eq_false {c : Char} (hlow : 0x20 < c.toNat) (hhigh : c.toNat < 0x85) : isBlank c = false := by
  simp only [isBlank, blankRanges, List.any_cons, List.any_nil, Bool.or_eq_false_iff, Bool.and_eq_false_iff,
    decide_eq_false_iff_not, and_true]
  omega

end BitcoinScript.Text
