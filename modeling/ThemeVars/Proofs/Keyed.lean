/-
Lists with one entry for each key. `entries_push`: an entry takes the place of
the one with its key, or comes last. `keys_foldl`, `find?_foldl`: after any entries
there is one for each key, in the order in which the keys came first, and it is
the last. `lookup_iff`, `find?_eq`: the index has its place. `foldl_entries`: it makes no
difference whether entries are gathered first.
-/
import Mathlib.Data.List.Induction
import Mathlib.Data.List.Nodup
import Mathlib.Data.List.Perm.Basic
import Mathlib.Tactic.Common
import ThemeVars.Keyed

namespace ThemeVars.Keyed

variable {α κ : Type} [BEq κ] [LawfulBEq κ] {key : α → κ}

/-- Entries with distinct keys, as they are. -/
def ofEntries (as : List α) (hd : (as.map key).Nodup) : Keyed key := ⟨as, slots key 0 as, rfl, hd⟩

/-! ## One entry -/

/-- The list with `a` in the place of the first with its key, or at the end. -/
def put (key : α → κ) (a : α) : List α → List α
  | [] => [a]
  | b :: rest => if key b == key a then a :: rest else b :: put key a rest

theorem put_of_not_mem {a : α} {as : List α} (h : key a ∉ as.map key) : put key a as = as ++ [a] := by
  induction as with
  | nil => rfl
  | cons b as ih =>
    rw [List.map_cons, List.mem_cons, not_or] at h
    rw [put, if_neg (by simpa using Ne.symm h.1), ih h.2, List.cons_append]

theorem put_eq_set {a b : α} {as : List α} {slot : Nat} (hd : (as.map key).Nodup) (hb : as[slot]? = .some b)
    (hkey : key b = key a) : put key a as = as.set slot a := by
  induction as generalizing slot with
  | nil => cases hb
  | cons c as ih =>
    rw [List.map_cons, List.nodup_cons] at hd
    cases slot with
    | zero =>
      cases hb
      rw [put, if_pos (by simp [hkey]), List.set_cons_zero]
    | succ slot =>
      have hc : key c ≠ key a := fun hc => hd.1 (hc.trans hkey.symm ▸ List.mem_map_of_mem (List.mem_of_getElem? hb))
      rw [put, if_neg (by simpa using hc), ih hd.2 hb, List.set_cons_succ]

theorem entries_push (s : Keyed key) (a : α) : (s.push a).entries = put key a s.entries := by
  unfold push
  split
  · rename_i slot h
    obtain ⟨b, hb, hkey⟩ := key_of_lookup h
    exact (put_eq_set s.distinct hb hkey).symm
  · rename_i h
    exact (put_of_not_mem (not_mem_of_lookup h)).symm

theorem keys_put [DecidableEq κ] (a : α) (as : List α) :
    (put key a as).map key = if key a ∈ as.map key then as.map key else as.map key ++ [key a] := by
  induction as with
  | nil => rfl
  | cons b as ih =>
    rw [put]
    by_cases hkey : key b = key a
    · rw [if_pos (by simp [hkey]), if_pos (by simp [hkey]), List.map_cons, List.map_cons, hkey]
    · have hmem : key a ∈ (b :: as).map key ↔ key a ∈ as.map key := by
        rw [List.map_cons, List.mem_cons, or_iff_right (Ne.symm hkey)]
      rw [if_neg (by simpa using hkey), List.map_cons, ih]
      simp only [hmem]
      split
      · rfl
      · rfl

omit [LawfulBEq κ] in
theorem mem_keys_put (a : α) (as : List α) : key a ∈ (put key a as).map key := by
  induction as with
  | nil => exact List.mem_singleton_self _
  | cons b as ih =>
    rw [put]
    split
    · exact List.mem_cons_self
    · exact List.mem_cons_of_mem _ ih

theorem mem_keys_put_of_mem {a : α} {k : κ} {as : List α} (h : k ∈ as.map key) : k ∈ (put key a as).map key := by
  induction as with
  | nil => cases h
  | cons b as ih =>
    rw [put]
    split
    · rename_i hkey
      rw [List.map_cons, eq_of_beq hkey] at h
      exact h
    · rw [List.map_cons] at h ⊢
      exact List.mem_cons.2 ((List.mem_cons.1 h).imp id ih)

theorem find?_put (a : α) (as : List α) (k : κ) :
    (put key a as).find? (key · == k) = if key a == k then .some a else as.find? (key · == k) := by
  induction as with
  | nil =>
    rw [put, List.find?_cons]
    cases key a == k with
    | true => rfl
    | false => rfl
  | cons b as ih =>
    rw [put]
    by_cases hkey : key b = key a
    · rw [if_pos (by simp [hkey]), List.find?_cons, List.find?_cons, hkey]
      cases key a == k with
      | true => rfl
      | false => rfl
    · rw [if_neg (by simpa using hkey), List.find?_cons, List.find?_cons, ih]
      by_cases hb : key b = k
      · have ha : key a ≠ k := fun h => hkey (hb.trans h.symm)
        simp [hb, ha]
      · have hnone : (key b == k) = false := beq_eq_false_iff_ne.2 hb
        simp only [hnone]

omit [LawfulBEq κ] in
theorem mem_put {a b : α} {as : List α} (h : b ∈ put key a as) : b = a ∨ b ∈ as := by
  induction as with
  | nil => exact .inl (List.mem_singleton.1 h)
  | cons c as ih =>
    rw [put] at h
    split at h
    · exact (List.mem_cons.1 h).imp_right (List.mem_cons_of_mem c)
    · rcases List.mem_cons.1 h with rfl | h
      · exact .inr List.mem_cons_self
      · exact (ih h).imp_right (List.mem_cons_of_mem c)

/-- Among entries with distinct keys, each is found by its key. -/
theorem find?_of_mem {a : α} {as : List α} (hd : (as.map key).Nodup) (h : a ∈ as) :
    as.find? (key · == key a) = .some a := by
  induction as with
  | nil => cases h
  | cons b as ih =>
    rw [List.map_cons, List.nodup_cons] at hd
    rcases List.mem_cons.1 h with rfl | h
    · exact List.find?_cons_of_pos (beq_self_eq_true _)
    · have hne : key b ≠ key a := fun he => hd.1 (he ▸ List.mem_map_of_mem h)
      rw [List.find?_cons_of_neg (by simpa using hne), ih hd.2 h]

/-- Among entries with distinct keys, their order is of no account. -/
theorem find?_perm {as bs : List α} (hd : (as.map key).Nodup) (h : as.Perm bs) (k : κ) :
    as.find? (key · == k) = bs.find? (key · == k) := by
  have hd' : (bs.map key).Nodup := (h.map key).nodup_iff.1 hd
  have hkey {a : α} {cs : List α} (ha : cs.find? (key · == k) = .some a) : key a = k := by simpa using List.find?_some ha
  apply Option.ext
  intro a
  constructor
  · intro ha
    rw [← hkey ha]
    exact find?_of_mem hd' (h.mem_iff.1 (List.mem_of_find?_eq_some ha))
  · intro ha
    rw [← hkey ha]
    exact find?_of_mem hd (h.mem_iff.2 (List.mem_of_find?_eq_some ha))

/-- An entry outdoes one with the same key. -/
theorem put_put {a b : α} (h : key b = key a) (as : List α) : put key a (put key b as) = put key a as := by
  induction as with
  | nil => simp [put, h]
  | cons c as ih =>
    by_cases hc : key c = key a
    · simp [put, h, hc]
    · simp [put, h, hc, ih]

/-- An entry whose key is there already can come later. -/
theorem put_comm {a b : α} (h : key b ≠ key a) {as : List α} (ha : key a ∈ as.map key) :
    put key a (put key b as) = put key b (put key a as) := by
  induction as with
  | nil => cases ha
  | cons c as ih =>
    by_cases hc : key c = key a
    · have hb : key a ≠ key b := Ne.symm h
      simp [put, hc, hb]
    · have hmem : key a ∈ as.map key := by
        rw [List.map_cons, List.mem_cons, or_iff_right (Ne.symm hc)] at ha
        exact ha
      by_cases hcb : key c = key b
      · simp [put, hcb, h]
      · simp [put, hc, hcb, ih hmem]

/-! ## Several entries -/

theorem entries_foldl (as : List α) (s : Keyed key) :
    (as.foldl push s).entries = as.foldl (fun l a => put key a l) s.entries := by
  induction as generalizing s with
  | nil => rfl
  | cons a as ih => rw [List.foldl_cons, List.foldl_cons, ih, entries_push]

/-- Before entries with other keys, one whose key is there already can come first. -/
theorem foldl_put_comm {a : α} {as l : List α} (has : key a ∉ as.map key) (hl : key a ∈ l.map key) :
    put key a (as.foldl (fun l a => put key a l) l) = as.foldl (fun l a => put key a l) (put key a l) := by
  induction as generalizing l with
  | nil => rfl
  | cons b as ih =>
    rw [List.map_cons, List.mem_cons, not_or] at has
    rw [List.foldl_cons, List.foldl_cons, ih has.2 (mem_keys_put_of_mem hl), put_comm (Ne.symm has.1) hl]

/-- An entry can be put among others first. -/
theorem foldl_put {a : α} {as : List α} (hd : (as.map key).Nodup) (l : List α) :
    (put key a as).foldl (fun l a => put key a l) l = put key a (as.foldl (fun l a => put key a l) l) := by
  induction as generalizing l with
  | nil => rfl
  | cons b as ih =>
    rw [List.map_cons, List.nodup_cons] at hd
    by_cases hkey : key b = key a
    · have hmem : key a ∈ (put key b l).map key := hkey ▸ mem_keys_put b l
      rw [put, if_pos (by simp [hkey]), List.foldl_cons, List.foldl_cons, foldl_put_comm (hkey ▸ hd.1) hmem, put_put hkey]
    · rw [put, if_neg (by simpa using hkey), List.foldl_cons, List.foldl_cons, ih hd.2]

/-- Entries can be gathered first. -/
theorem foldl_entries (s : Keyed key) (as : List α) :
    (as.foldl push ({} : Keyed key)).entries.foldl push s = as.foldl push s := by
  induction as using List.reverseRecOn with
  | nil => rfl
  | append_singleton as a ih =>
    refine ext_entries ?_
    rw [List.foldl_append, List.foldl_append, List.foldl_cons, List.foldl_cons, List.foldl_nil, List.foldl_nil,
      entries_push, entries_push, ← ih, entries_foldl _ s, entries_foldl _ s]
    exact foldl_put (as.foldl push ({} : Keyed key)).distinct s.entries

/-- What the index leads to is the entry with the key. -/
theorem find?_eq (s : Keyed key) (k : κ) : s.entries.find? (key · == k) = (s.index.lookup k).bind (s.entries[·]?) := by
  cases h : s.index.lookup k with
  | none =>
    refine List.find?_eq_none.2 fun a ha hk => not_mem_of_lookup h ?_
    rw [← eq_of_beq hk]
    exact List.mem_map_of_mem ha
  | some slot =>
    rw [s.inStep, lookup_slots, Option.map_eq_some_iff] at h
    obtain ⟨i, hi, rfl⟩ := h
    obtain ⟨hlength, hkey, hbefore⟩ := List.findIdx?_eq_some_iff_getElem.1 hi
    rw [Nat.zero_add, Option.bind_some, List.getElem?_eq_getElem hlength]
    exact List.find?_eq_some_iff_getElem.2 ⟨hkey, i, hlength, rfl, fun j hj => by simpa using hbefore j hj⟩

theorem lookup_iff {s : Keyed key} {k : κ} {slot : Nat} :
    s.index.lookup k = .some slot ↔ (s.entries[slot]?).map key = .some k := by
  constructor
  · intro h
    obtain ⟨b, hb, rfl⟩ := key_of_lookup h
    rw [hb]
    rfl
  · intro h
    rw [← List.getElem?_map] at h
    cases hlookup : s.index.lookup k with
    | none => exact absurd (List.mem_of_getElem? h) (not_mem_of_lookup hlookup)
    | some slot' =>
      obtain ⟨b, hb, hkey⟩ := key_of_lookup hlookup
      have h' : (s.entries.map key)[slot']? = .some k := by rw [List.getElem?_map, hb, Option.map_some, hkey]
      have hlength : slot' < (s.entries.map key).length := (List.getElem?_eq_some_iff.1 h').1
      rw [(List.getElem?_inj hlength s.distinct).1 (h'.trans h.symm)]

theorem keys_foldl (as : List α) : (as.foldl push ({} : Keyed key)).entries.map key = (as.map key).eraseDups := by
  classical
  induction as using List.reverseRecOn with
  | nil => rfl
  | append_singleton as a ih =>
    rw [List.foldl_append, List.foldl_cons, List.foldl_nil, entries_push, keys_put, ih, List.map_append,
      List.eraseDups_append, List.map_singleton]
    by_cases hmem : key a ∈ as.map key
    · rw [if_pos (List.mem_eraseDups.2 hmem), List.removeAll, List.filter_cons_of_neg (by simpa using hmem)]
      simp
    · rw [if_neg (mt List.mem_eraseDups.1 hmem), List.removeAll, List.filter_cons_of_pos (by simpa using hmem)]
      rfl

/-- What was pushed last is found first. -/
theorem find?_foldl (as : List α) (s : Keyed key) (k : κ) :
    (as.foldl push s).entries.find? (key · == k) =
      (as.reverse.find? (key · == k)).or (s.entries.find? (key · == k)) := by
  induction as using List.reverseRecOn with
  | nil => rfl
  | append_singleton as a ih =>
    rw [List.foldl_append, List.foldl_cons, List.foldl_nil, entries_push, find?_put, List.reverse_append,
      List.reverse_singleton, List.singleton_append, List.find?_cons, ih]
    cases key a == k with
    | true => rfl
    | false => rfl

end ThemeVars.Keyed
