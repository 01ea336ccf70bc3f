/-
  `json.dumps` of Python values, with `sort_keys` and the separators `,` and `:`.

  The text is ASCII: what is no printable ASCII character is written as the escapes of its UTF-16
  units. So strings with the same units are written alike, and this is all that is lost.
-/
import Virtuals.Lib.Text
import Mathlib.Data.List.Lex
import Mathlib.Data.List.Sort
import Mathlib.Order.Fin.Basic
import Mathlib.Order.Lattice

namespace Virtuals.Lib

/-- What `json` can write. -/
inductive Json where
  | null
  | bool (b : Bool)
  | int (i : Int)
  | str (s : PyStr)
  | arr (items : List Json)
  | obj (items : List (PyStr × Json))

namespace Json

/-! ## Strings -/

/-- `"{:04x}".format(n)`. -/
def hex4 (n : Nat) : List Char :=
  [(n / 4096 % 16).digitChar, (n / 256 % 16).digitChar, (n / 16 % 16).digitChar,
    (n % 16).digitChar]

/-- One UTF-16 unit of a string. -/
def escape (u : UInt16) : List Char :=
  if u = 0x22 then ['\\', '"']
  else if u = 0x5C then ['\\', '\\']
  else if u = 0x0A then ['\\', 'n']
  else if u = 0x0D then ['\\', 'r']
  else if u = 0x09 then ['\\', 't']
  else if u = 0x0C then ['\\', 'f']
  else if u = 0x08 then ['\\', 'b']
  else if 0x20 ≤ u ∧ u ≤ 0x7E then [Char.ofNat u.toNat]
  else ['\\', 'u'] ++ hex4 u.toNat

def strText (s : PyStr) : List Char := '"' :: ((units s).flatMap escape ++ ['"'])

theorem digitChar_inj : ∀ a < 16, ∀ b < 16, Nat.digitChar a = Nat.digitChar b → a = b := by
  decide

theorem hex4_inj {m n : Nat} (hm : m < 65536) (hn : n < 65536) (h : hex4 m = hex4 n) : m = n := by
  simp only [hex4, List.cons.injEq, and_true] at h
  obtain ⟨h1, h2, h3, h4⟩ := h
  have h1 := digitChar_inj _ (by omega) _ (by omega) h1
  have h2 := digitChar_inj _ (by omega) _ (by omega) h2
  have h3 := digitChar_inj _ (by omega) _ (by omega) h3
  have h4 := digitChar_inj _ (by omega) _ (by omega) h4
  omega

/-- The characters with an escape of their own. -/
def shorts : List (UInt16 × Char) :=
  [(0x22, '"'), (0x5C, '\\'), (0x0A, 'n'), (0x0D, 'r'), (0x09, 't'), (0x0C, 'f'), (0x08, 'b')]

theorem escape_cases (u : UInt16) :
    (∃ c, (u, c) ∈ shorts ∧ escape u = ['\\', c]) ∨
    (u ≠ 0x22 ∧ u ≠ 0x5C ∧ 0x20 ≤ u ∧ u ≤ 0x7E ∧ escape u = [Char.ofNat u.toNat]) ∨
    escape u = '\\' :: 'u' :: hex4 u.toNat := by
  unfold escape
  split_ifs with h1 h2 h3 h4 h5 h6 h7 h8
  · exact .inl ⟨_, by rw [h1]; decide, rfl⟩
  · exact .inl ⟨_, by rw [h2]; decide, rfl⟩
  · exact .inl ⟨_, by rw [h3]; decide, rfl⟩
  · exact .inl ⟨_, by rw [h4]; decide, rfl⟩
  · exact .inl ⟨_, by rw [h5]; decide, rfl⟩
  · exact .inl ⟨_, by rw [h6]; decide, rfl⟩
  · exact .inl ⟨_, by rw [h7]; decide, rfl⟩
  · exact .inr (.inl ⟨h1, h2, h8.1, h8.2, rfl⟩)
  · exact .inr (.inr rfl)

theorem shorts_inj : ∀ a ∈ shorts, ∀ b ∈ shorts, a.2 = b.2 → a = b := by decide

theorem shorts_ne_u : ∀ a ∈ shorts, a.2 ≠ 'u' := by decide

theorem toNat_ofNat_ascii : ∀ n < 127, (Char.ofNat n).toNat = n := by decide

/-- A printable unit is its character. -/
theorem ofNat_unit_inj {u v : UInt16} (hu : u ≤ 0x7E) (hv : v ≤ 0x7E)
    (h : Char.ofNat u.toNat = Char.ofNat v.toNat) : u = v := by
  have hlt : ∀ {w : UInt16}, w ≤ 0x7E → (Char.ofNat w.toNat).toNat = w.toNat := fun {w} hw => by
    rw [UInt16.le_iff_toNat_le] at hw
    exact toNat_ofNat_ascii _ (Nat.lt_succ_of_le hw)
  exact UInt16.toNat_inj.1 (by rw [← hlt hu, ← hlt hv, h])

theorem ofNat_unit_ne {u v : UInt16} (hu : u ≤ 0x7E) (hv : v ≤ 0x7E) (h : u ≠ v) :
    Char.ofNat u.toNat ≠ Char.ofNat v.toNat := fun he => h (ofNat_unit_inj hu hv he)

theorem prefixFree_escape : PrefixFree escape := by
  have hraw : ∀ {u : UInt16}, u ≠ 0x5C → u ≤ 0x7E → Char.ofNat u.toNat ≠ '\\' := fun h h' =>
    ofNat_unit_ne (v := 0x5C) h' (by decide) h
  intro u v x y _ _ h
  rcases escape_cases u with ⟨c, hc, hu⟩ | ⟨-, hu1, -, hu2, hu⟩ | hu <;>
    rcases escape_cases v with ⟨d, hd, hv⟩ | ⟨-, hv1, -, hv2, hv⟩ | hv <;>
    simp only [hu, hv, List.cons_append, List.nil_append, List.cons.injEq, true_and] at h
  · exact ⟨congrArg Prod.fst (shorts_inj _ hc _ hd h.1), h.2⟩
  · exact absurd h.1.symm (hraw hv1 hv2)
  · exact absurd h.1 (shorts_ne_u _ hc)
  · exact absurd h.1 (hraw hu1 hu2)
  · exact ⟨ofNat_unit_inj hu2 hv2 h.1, h.2⟩
  · exact absurd h.1 (hraw hu1 hu2)
  · exact absurd h.1.symm (shorts_ne_u _ hd)
  · exact absurd h.1.symm (hraw hv1 hv2)
  · obtain ⟨hhex, hxy⟩ := List.append_inj h rfl
    exact ⟨UInt16.toNat_inj.1 (hex4_inj u.toNat_lt v.toNat_lt hhex), hxy⟩

theorem escape_notHead : NotHead escape '"' := by
  intro u
  rcases escape_cases u with ⟨c, -, hu⟩ | ⟨hu1, -, -, hu2, hu⟩ | hu
  · exact ⟨_, _, hu, by decide⟩
  · exact ⟨_, _, hu, ofNat_unit_ne (v := 0x22) hu2 (by decide) hu1⟩
  · exact ⟨_, _, hu, by decide⟩

/-- (PROVED) The text of a string tells its units and where it ends. -/
theorem strText_delimits (s : PyStr) :
    DelimitsAt (fun _ => True) strText (fun s t => units s = units t) s := by
  intro t x y _ _ h
  exact prefixFree_escape.terminated escape_notHead trivial trivial (List.cons.inj h).2

/-! ## Values -/

mutual

def dumps : Json → List Char
  | .null => ['n', 'u', 'l', 'l']
  | .bool true => ['t', 'r', 'u', 'e']
  | .bool false => ['f', 'a', 'l', 's', 'e']
  | .int i => intText i
  | .str s => strText s
  | .arr items => '[' :: (separated ',' (dumpsAll items) ++ [']'])
  | .obj items =>
    '{' :: (separated ',' (((dumpsItems items).insertionSort fun a b => a.1 ≤ b.1).map
      fun a => strText a.1 ++ ':' :: a.2) ++ ['}'])

def dumpsAll : List Json → List (List Char)
  | [] => []
  | v :: vs => dumps v :: dumpsAll vs

def dumpsItems : List (PyStr × Json) → List (PyStr × List Char)
  | [] => []
  | (k, v) :: items => (k, dumps v) :: dumpsItems items

end

theorem dumpsAll_eq (vs : List Json) : dumpsAll vs = vs.map dumps := by
  induction vs with
  | nil => rfl
  | cons v vs ih => rw [dumpsAll, ih, List.map_cons]

/-- An object of two fields is written in the order of their names. -/
theorem dumps_obj_pair {j k : PyStr} (v w : Json) (h : ¬ j ≤ k) :
    dumps (.obj [(j, v), (k, w)]) =
      '{' :: (separated ',' [strText k ++ ':' :: dumps w, strText j ++ ':' :: dumps v] ++ ['}']) := by
  simp [dumps, dumpsItems, List.insertionSort, List.orderedInsert, h]

end Json

end Virtuals.Lib
