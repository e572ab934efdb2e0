/-
Lists with one entry for each key, in the order in which the keys came first. An
entry takes the place of an earlier one with its key, which an index tells.
-/

namespace ThemeVars

/-- The key of each entry, with the entry's place. -/
def Keyed.slots {α κ : Type} (key : α → κ) (first : Nat) : List α → List (κ × Nat)
  | [] => []
  | a :: rest => (key a, first) :: slots key (first + 1) rest

/-- The entries, and an index of their places. -/
structure Keyed {α κ : Type} (key : α → κ) where
  entries : List α
  /-- Where the entry with a key stands. -/
  index : List (κ × Nat)
  inStep : index = Keyed.slots key 0 entries
  distinct : (entries.map key).Nodup
deriving Repr

namespace Keyed

variable {α κ : Type} {key : α → κ}

instance : EmptyCollection (Keyed key) := ⟨⟨[], [], rfl, List.nodup_nil⟩⟩

instance : Inhabited (Keyed key) := ⟨{}⟩

/-- It is known by its entries. -/
theorem ext_entries : {s t : Keyed key} → s.entries = t.entries → s = t
  | ⟨entries, index, hs, _⟩, ⟨entries', index', ht, _⟩, h => by
    cases h
    cases hs.trans ht.symm
    rfl

instance [DecidableEq α] : DecidableEq (Keyed key) := fun s t =>
  decidable_of_iff (s.entries = t.entries) ⟨ext_entries, fun h => h ▸ rfl⟩

theorem slots_concat (first : Nat) (as : List α) (a : α) :
    slots key first (as ++ [a]) = slots key first as ++ [(key a, first + as.length)] := by
  induction as generalizing first with
  | nil => rfl
  | cons b as ih =>
    rw [List.cons_append, slots, ih, slots, List.cons_append, List.length_cons, Nat.add_right_comm, Nat.add_assoc]

/-- An entry with the same key leaves the places as they are. -/
theorem slots_set {as : List α} {i : Nat} {a b : α} (hb : as[i]? = .some b) (hkey : key b = key a) (first : Nat) :
    slots key first (as.set i a) = slots key first as := by
  induction as generalizing i first with
  | nil => cases hb
  | cons c as ih =>
    cases i with
    | zero =>
      cases hb
      rw [List.set_cons_zero, slots, slots, hkey]
    | succ i => rw [List.set_cons_succ, slots, slots, ih hb]

theorem map_slots (first : Nat) (as : List α) : (slots key first as).map (·.1) = as.map key := by
  induction as generalizing first with
  | nil => rfl
  | cons a as ih => rw [slots, List.map_cons, ih, List.map_cons]

variable [BEq κ] [LawfulBEq κ]

theorem lookup_slots (k : κ) (first : Nat) (as : List α) :
    (slots key first as).lookup k = (as.findIdx? (key · == k)).map (first + ·) := by
  induction as generalizing first with
  | nil => rfl
  | cons a as ih =>
    have hsame : (k == key a) = (key a == k) := BEq.comm
    rw [slots, List.lookup_cons, List.findIdx?_cons, hsame, ih]
    cases key a == k with
    | true => rfl
    | false =>
      simp only [Bool.false_eq_true, if_false, Option.map_map]
      congr 1
      funext i
      exact Nat.add_right_comm first 1 i

theorem key_of_lookup {s : Keyed key} {k : κ} {slot : Nat} (h : s.index.lookup k = .some slot) :
    ∃ b, s.entries[slot]? = .some b ∧ key b = k := by
  rw [s.inStep, lookup_slots, Option.map_eq_some_iff] at h
  obtain ⟨i, hi, rfl⟩ := h
  obtain ⟨hlength, hkey, -⟩ := List.findIdx?_eq_some_iff_getElem.1 hi
  rw [Nat.zero_add]
  exact ⟨s.entries[i], List.getElem?_eq_getElem hlength, eq_of_beq hkey⟩

theorem not_mem_of_lookup {s : Keyed key} {k : κ} (h : s.index.lookup k = .none) : k ∉ s.entries.map key := by
  rw [s.inStep, lookup_slots, Option.map_eq_none_iff, List.findIdx?_eq_none_iff] at h
  rw [List.mem_map]
  rintro ⟨b, hb, rfl⟩
  simpa using h b hb

/-- With `a` in the place of the entry with its key, or at the end. -/
def push (s : Keyed key) (a : α) : Keyed key :=
  match h : s.index.lookup (key a) with
  | .some slot => {
      entries := s.entries.set slot a
      index := s.index
      inStep := by
        obtain ⟨b, hb, hkey⟩ := key_of_lookup h
        rw [slots_set hb hkey, s.inStep]
      distinct := by
        obtain ⟨b, hb, hkey⟩ := key_of_lookup h
        rw [← map_slots 0, slots_set hb hkey, map_slots]
        exact s.distinct }
  | .none => {
      entries := s.entries ++ [a]
      index := s.index ++ [(key a, s.entries.length)]
      inStep := by rw [slots_concat, s.inStep, Nat.zero_add]
      distinct := by
        rw [List.map_append, List.nodup_append]
        refine ⟨s.distinct, List.nodup_cons.2 ⟨List.not_mem_nil, List.nodup_nil⟩, fun k hk k' hk' heq => ?_⟩
        cases List.mem_singleton.1 hk'
        exact not_mem_of_lookup h (heq ▸ hk) }

end Keyed

end ThemeVars
