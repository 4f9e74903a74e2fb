import Mathlib.Data.List.Nodup

/-! Lookups. Where keys tell the entries of a list apart, a lookup by a key finds the one entry of the
key, in whatever order the entries come. The place of an entry is behind all that do not equal it. -/

namespace AmpMarkup

variable {α κ : Type} [BEq κ] [LawfulBEq κ] {key : α → κ} {l l' : List α} {k : κ} {a : α}

theorem find?_key_eq_some_iff (hn : (l.map key).Nodup) :
    l.find? (key · == k) = some a ↔ a ∈ l ∧ key a = k := by
  constructor
  · intro h
    exact ⟨List.mem_of_find?_eq_some h, by simpa using List.find?_some h⟩
  · rintro ⟨ha, hk⟩
    cases hfind : l.find? (key · == k) with
    | none => exact absurd hk (by simpa using List.find?_eq_none.mp hfind a ha)
    | some b =>
        have hb : key b = k := by simpa using List.find?_some hfind
        rw [List.inj_on_of_nodup_map hn (List.mem_of_find?_eq_some hfind) ha (hb.trans hk.symm)]

theorem find?_key_perm (hp : l.Perm l') (hn : (l.map key).Nodup) (k : κ) :
    l.find? (key · == k) = l'.find? (key · == k) := by
  refine Option.ext fun a => ?_
  rw [find?_key_eq_some_iff hn, find?_key_eq_some_iff ((hp.map key).nodup_iff.mp hn), hp.mem_iff]

theorem idxOf?_append_cons {β : Type} [BEq β] [LawfulBEq β] {b : β} {before : List β}
    (hb : b ∉ before) (rest : List β) : (before ++ b :: rest).idxOf? b = some before.length := by
  induction before with
  | nil => simp [List.idxOf?_cons]
  | cons c before ih =>
      rw [List.mem_cons, not_or] at hb
      rw [List.cons_append, List.idxOf?_cons, if_neg (by simpa using Ne.symm hb.1), ih hb.2]
      rfl

end AmpMarkup
