import Std.Data.String.ToNat
import StackVm.Text.Numeral

/-!
# Written numbers

The digits of a number give back its value (`digitsValue_toDigits`), so decimal,
signed and hexadecimal texts belong to one number each. None of them has a
blank in it (`Solid`), so they can be told apart from what follows.
-/

namespace StackVm

/-! ## Digits -/

def digitValue (c : Char) : Nat := if c.isDigit then c.toNat - '0'.toNat else c.toNat - 'a'.toNat + 10

def digitsValue (cs : List Char) : Nat := cs.foldl (fun n c => 16 * n + digitValue c) 0

theorem digitValue_digitChar : ∀ d < 16, digitValue d.digitChar = d := by decide

theorem isWhitespace_digitChar : ∀ d < 16, d.digitChar.isWhitespace = false := by decide

theorem digitsValue_toDigits (n : Nat) : digitsValue (Nat.toDigits 16 n) = n := by
  induction n using Nat.strongRecOn with
  | ind n ih =>
    rw [Nat.toDigits_eq_if (by decide)]
    by_cases h : n < 16
    · simp [h, digitsValue, digitValue_digitChar n h]
    · have hlast : n % 16 < 16 := Nat.mod_lt _ (by decide)
      have hfront : digitsValue (Nat.toDigits 16 (n / 16)) = n / 16 := ih _ (by omega)
      unfold digitsValue at hfront ⊢
      rw [if_neg h, List.foldl_append, hfront]
      simp [digitValue_digitChar _ hlast]
      omega

theorem digitsValue_zeros (k : Nat) (cs : List Char) : digitsValue (List.replicate k '0' ++ cs) = digitsValue cs := by
  induction k with
  | zero => rfl
  | succ k ih => exact ih

theorem isWhitespace_of_mem_toDigits {base n : Nat} (h : 1 < base) (h' : base ≤ 16) {c : Char}
    (hc : c ∈ Nat.toDigits base n) : c.isWhitespace = false := by
  induction n using Nat.strongRecOn with
  | ind n ih =>
    rw [Nat.toDigits_eq_if h] at hc
    by_cases hn : n < base
    · rw [if_pos hn, List.mem_singleton] at hc
      rw [hc]
      exact isWhitespace_digitChar n (by omega)
    · rw [if_neg hn, List.mem_append, List.mem_singleton] at hc
      rcases hc with hc | hc
      · exact ih _ (Nat.div_lt_self (by omega) h) hc
      · have hlt := Nat.mod_lt n (show base > 0 by omega)
        rw [hc]
        exact isWhitespace_digitChar _ (by omega)

/-! ## Different numbers have different texts -/

theorem hex_inj {width m n : Nat} (h : hex width m = hex width n) : m = n := by
  have hvalue : ∀ k, digitsValue (hex width k).toList = k := by
    intro k
    unfold hex
    rw [String.toList_ofList, digitsValue_zeros, digitsValue_toDigits]
  rw [← hvalue m, h, hvalue n]

theorem hexName_inj {width m n : Nat} (h : hexName width m = hexName width n) : m = n :=
  hex_inj ((String.append_right_inj _).mp h)

theorem repr_ne_minus {n : Nat} {text : String} : n.repr ≠ "-" ++ text := by
  intro h
  have hmem : '-' ∈ n.repr.toList := by
    rw [h, String.toList_append]
    exact List.mem_append_left _ (by decide)
  rw [Nat.repr_eq_ofList_toDigits, String.toList_ofList] at hmem
  exact absurd (Nat.isDigit_of_mem_toDigits (by decide) (by decide) hmem) (by decide)

theorem negSucc_of_repr {m n : Nat} (h : "-" ++ (m + 1).repr = "-" ++ (n + 1).repr) :
    Int.negSucc m = Int.negSucc n := by
  have hmn : m + 1 = n + 1 := Nat.repr_inj.mp ((String.append_right_inj _).mp h)
  rw [Nat.succ.inj hmn]

theorem decimal_inj {i j : Int} (h : decimal i = decimal j) : i = j := by
  cases i with
  | ofNat m =>
    cases j with
    | ofNat n => exact congrArg Int.ofNat (Nat.repr_inj.mp h)
    | negSucc n => exact absurd h repr_ne_minus
  | negSucc m =>
    cases j with
    | ofNat n => exact absurd h.symm repr_ne_minus
    | negSucc n => exact negSucc_of_repr h

theorem plus_ne_minus {s t : String} : "+" ++ s ≠ "-" ++ t := by
  intro h
  have hlist := congrArg String.toList h
  simp at hlist

theorem signed_inj {i j : Int} (h : signed i = signed j) : i = j := by
  cases i with
  | ofNat m =>
    cases j with
    | ofNat n => exact congrArg Int.ofNat (Nat.repr_inj.mp ((String.append_right_inj _).mp h))
    | negSucc n => exact absurd h plus_ne_minus
  | negSucc m =>
    cases j with
    | ofNat n => exact absurd h.symm plus_ne_minus
    | negSucc n => exact negSucc_of_repr h

/-! ## Texts in one piece -/

def Solid (text : String) : Prop := ∀ c ∈ text.toList, c.isWhitespace = false

instance (text : String) : Decidable (Solid text) :=
  decidable_of_iff (text.toList.all (!·.isWhitespace) = true) (by simp [Solid])

theorem solid_append {s t : String} (hs : Solid s) (ht : Solid t) : Solid (s ++ t) := by
  intro c hc
  rw [String.toList_append, List.mem_append] at hc
  rcases hc with hc | hc
  · exact hs c hc
  · exact ht c hc

theorem solid_repr (n : Nat) : Solid n.repr := by
  intro c hc
  rw [Nat.repr_eq_ofList_toDigits, String.toList_ofList] at hc
  exact isWhitespace_of_mem_toDigits (by decide) (by decide) hc

theorem solid_hex (width n : Nat) : Solid (hex width n) := by
  intro c hc
  unfold hex at hc
  rw [String.toList_ofList, List.mem_append, List.mem_replicate] at hc
  rcases hc with ⟨_, hc⟩ | hc
  · rw [hc]
    decide
  · exact isWhitespace_of_mem_toDigits (by decide) (by decide) hc

theorem solid_hexName (width n : Nat) : Solid (hexName width n) := solid_append (by decide) (solid_hex width n)

theorem solid_decimal (i : Int) : Solid (decimal i) := by
  cases i with
  | ofNat n => exact solid_repr n
  | negSucc n => exact solid_append (by decide) (solid_repr _)

theorem solid_signed (i : Int) : Solid (signed i) := by
  cases i with
  | ofNat n => exact solid_append (by decide) (solid_repr n)
  | negSucc n => exact solid_append (by decide) (solid_repr _)

end StackVm
