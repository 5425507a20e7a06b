import AndroidCore.Libunwindstack.DwarfEhFrame

/-!
# `AndroidCore.Proofs.Libunwindstack.DwarfEhFrame`: searches of `.eh_frame_hdr`

`GetFdeOffsetBinary` uses what `GetFdeInfoFromIndex` returns without a test, also when the entry
could not be read. `getFdeOffsetBinary_derefs_iff` says when that goes well: the entries that the
search visits (`Probed`) are in the cache or can be read. `fde_count_` comes from the file, so
nothing makes that so.
-/

namespace AndroidCore.Libunwindstack.DwarfEhFrame

variable {t : AddressType}

/-- What an index stands for: the entry in the cache, or the one in the table. -/
def entry (e : DwarfEhFrame t) (index : Word) : Except PointerFailure (FdeInfo t) :=
  match e.fdeInfo.lookup index with
  | some info => .ok info
  | none => e.readEntry index

variable {e : DwarfEhFrame t} {index : Word}

/-- An entry that is there is used, and a cache with it stands for the same entries. -/
theorem useFdeInfo_ok {info : FdeInfo t} (h : e.entry index = .ok info) :
    ∃ e' : DwarfEhFrame t, e.useFdeInfo index = .ok (info, e') ∧ e'.entry = e.entry := by
  unfold entry at h
  unfold useFdeInfo getFdeInfoFromIndex
  cases hl : e.fdeInfo.lookup index with
  | some info' =>
    rw [hl] at h
    cases h
    exact ⟨e, rfl, rfl⟩
  | none =>
    rw [hl] at h
    refine ⟨{ e with fdeInfo := (index, info) :: e.fdeInfo }, by simp only [h], ?_⟩
    funext j
    unfold entry
    by_cases hj : j = index
    · subst hj
      simp [hl, h]
    · rw [List.lookup_cons, beq_false_of_ne hj]
      rfl

/-- An entry that is not there: the null pointer is used if it cannot be read. -/
theorem useFdeInfo_error {failure : PointerFailure} (h : e.entry index = .error failure) :
    e.useFdeInfo index =
      .error (if failure = .read .unreadable then .nullDereference else .pointer failure) := by
  unfold entry at h
  unfold useFdeInfo getFdeInfoFromIndex
  cases hl : e.fdeInfo.lookup index with
  | some info => simp [hl] at h
  | none =>
    rw [hl] at h
    simp only [h]
    rcases failure with (_ | _) | _ <;> rfl

/-- The entries that a search between `first` and `last` visits. -/
inductive Probed (entry : Word → Except PointerFailure (FdeInfo t)) (pc : Word) :
    Word → Word → Word → Prop
  | middle {first last : Word} (h : first < last) :
      Probed entry pc first last ((first + last) / 2)
  | final {first last : Word} (h : ¬ first < last) (hlast : last ≠ 0) :
      Probed entry pc first last (last - 1)
  | lower {first last index : Word} {info : FdeInfo t} (h : first < last)
      (hinfo : entry ((first + last) / 2) = .ok info) (hpc : pc.toNat < info.pc.toNat)
      (rest : Probed entry pc first ((first + last) / 2) index) :
      Probed entry pc first last index
  | upper {first last index : Word} {info : FdeInfo t} (h : first < last)
      (hinfo : entry ((first + last) / 2) = .ok info) (hpc : info.pc.toNat < pc.toNat)
      (rest : Probed entry pc ((first + last) / 2 + 1) last index) :
      Probed entry pc first last index

/-- A visited entry that cannot be read: some number of rounds leads to it. -/
theorem Probed.nullDereference {entry : Word → Except PointerFailure (FdeInfo t)}
    {pc first last : Word} (h : Probed entry pc first last index)
    (hnull : entry index = .error (.read .unreadable)) (e : DwarfEhFrame t) (he : e.entry = entry) :
    ∃ fuel, binaryLoop pc fuel e first last = .error .nullDereference := by
  induction h generalizing e with
  | middle h =>
    subst he
    refine ⟨1, ?_⟩
    simp only [binaryLoop, if_pos h, useFdeInfo_error hnull]
    rfl
  | final h hlast =>
    subst he
    refine ⟨1, ?_⟩
    rw [binaryLoop, if_neg h, if_pos hlast, useFdeInfo_error hnull]
    rfl
  | lower h hinfo hpc _ ih =>
    subst he
    obtain ⟨e', huse, he'⟩ := useFdeInfo_ok hinfo
    obtain ⟨fuel, hloop⟩ := ih hnull e' he'
    refine ⟨fuel + 1, ?_⟩
    simp only [binaryLoop, if_pos h, huse]
    exact (if_neg hpc.ne).trans ((if_pos hpc).trans hloop)
  | upper h hinfo hpc _ ih =>
    subst he
    obtain ⟨e', huse, he'⟩ := useFdeInfo_ok hinfo
    obtain ⟨fuel, hloop⟩ := ih hnull e' he'
    refine ⟨fuel + 1, ?_⟩
    simp only [binaryLoop, if_pos h, huse]
    exact (if_neg hpc.ne').trans ((if_neg hpc.not_gt).trans hloop)

/-- A use of an entry that can be read or crashes the read goes on without a null pointer. -/
theorem useFdeInfo_bind_ne {α : Type} (h : e.entry index ≠ .error (.read .unreadable))
    {next : FdeInfo t × DwarfEhFrame t → Except Stop α}
    (hnext : ∀ info (e' : DwarfEhFrame t), e.entry index = .ok info → e'.entry = e.entry →
      next (info, e') ≠ .error .nullDereference) :
    (e.useFdeInfo index >>= next) ≠ .error .nullDereference := by
  cases hi : e.entry index with
  | ok info =>
    obtain ⟨e', huse, he'⟩ := useFdeInfo_ok hi
    rw [huse]
    exact hnext info e' hi he'
  | error failure =>
    rw [useFdeInfo_error hi, if_neg (by rintro rfl; exact h hi)]
    exact nofun

theorem binaryLoop_ne (pc : Word) (fuel : Nat) (e : DwarfEhFrame t) (first last : Word)
    (h : ∀ index, Probed e.entry pc first last index →
      e.entry index ≠ .error (.read .unreadable)) :
    binaryLoop pc fuel e first last ≠ .error .nullDereference := by
  induction fuel generalizing e first last with
  | zero => exact nofun
  | succ fuel ih =>
    rw [binaryLoop]
    split
    · rename_i hlt
      refine useFdeInfo_bind_ne (h _ (.middle hlt)) fun info e' hinfo he' => ?_
      -- the half that the search goes on with is visited from here, with the cache of `e'`
      dsimp only
      split
      · exact nofun
      · split
        · rename_i hpc
          exact ih e' _ _ (he' ▸ fun index hrest => h index (.lower hlt hinfo hpc hrest))
        · exact ih e' _ _ (he' ▸ fun index hrest => h index (.upper hlt hinfo (by omega) hrest))
    · split
      · rename_i hge hlast
        exact useFdeInfo_bind_ne (h _ (.final hge hlast)) fun _ _ _ _ => nofun
      · exact nofun

/-- `GetFdeOffsetBinary` uses no null pointer exactly when every entry that it visits is cached or
can be read. -/
theorem getFdeOffsetBinary_derefs_iff (e : DwarfEhFrame t) (pc totalEntries : Word)
    (hcount : 0 < e.fdeCount) (htotal : totalEntries ≤ e.fdeCount) :
    (∀ fuel, e.getFdeOffsetBinary fuel pc totalEntries ≠ .error .nullDereference) ↔
      ∀ index, Probed e.entry pc 0 totalEntries index →
        e.entry index ≠ .error (.read .unreadable) := by
  have hloop (fuel : Nat) : e.getFdeOffsetBinary fuel pc totalEntries =
      binaryLoop pc fuel e 0 totalEntries := by
    rw [getFdeOffsetBinary, if_neg (not_or.mpr ⟨not_not.mpr hcount, not_not.mpr htotal⟩)]
  simp only [hloop]
  constructor
  · intro h index hprobed hnull
    obtain ⟨fuel, hfuel⟩ := hprobed.nullDereference hnull e rfl
    exact h fuel hfuel
  · exact fun h fuel => binaryLoop_ne pc fuel e 0 totalEntries h

/-- A header that `Init` accepts, of a table of two entries whose second one is cut off. -/
theorem getFdeOffsetBinary_nullDereference :
    let s : Section := ⟨[1, 3, 3, 3, 0, 0, 0, 0, 2, 0, 0, 0, 8, 0, 0, 0, 9, 0, 0, 0], by decide⟩
    ∃ e : DwarfEhFrame .uint32, init .uint32 s 0 = .ok e ∧
      e.getFdeOffsetBinary 1 12 e.fdeCount = .error .nullDereference :=
  ⟨_, rfl, rfl⟩

/-- The same header with three entries. The search for the last one looks at the second one
first. -/
theorem getFdeOffsetBinary_derefs_three :
    let s : Section := ⟨[1, 3, 3, 3, 0, 0, 0, 0, 3, 0, 0, 0, 8, 0, 0, 0, 9, 0, 0, 0,
      16, 0, 0, 0, 17, 0, 0, 0, 32, 0, 0, 0, 33, 0, 0, 0], by decide⟩
    ∃ e : DwarfEhFrame .uint32, init .uint32 s 0 = .ok e ∧
      ((e.getFdeOffsetBinary 3 40 3).toOption.map fun r => (r.1, r.2.fdeInfo.map Prod.fst))
        = some (some 33, [2, 1]) ∧
      ((∀ fuel, e.getFdeOffsetBinary fuel 40 3 ≠ .error .nullDereference) ↔
        ∀ index, Probed e.entry 40 0 3 index → e.entry index ≠ .error (.read .unreadable)) :=
  ⟨_, rfl, rfl, getFdeOffsetBinary_derefs_iff _ 40 3 (by decide) (by decide)⟩

end AndroidCore.Libunwindstack.DwarfEhFrame
