import ChomskyNormal.Proofs.Sampling

/-!
Words grown one after another. Whether a word can be grown depends on the grammar alone, not on the
source, so that a series of them is either grown to its end or fails at its first word.
-/

set_option autoImplicit false
set_option relaxedAutoImplicit false

namespace ChomskyNormal

namespace Samples

variable {σ ε : Type} {one : σ → Except SampleFault (Text × σ)} {s s' : σ} {e : SampleFault}

/-- Words grown one after another, each from the state that the one before it has left. -/
inductive Series (one : σ → Except ε (Text × σ)) : σ → List Text → σ → Prop where
  | nil (s : σ) : Series one s [] s
  | cons {s s₁ s₂ : σ} {w : Text} {words : List Text} (hw : one s = .ok (w, s₁))
      (rest : Series one s₁ words s₂) : Series one s (w :: words) s₂

theorem Series.imp {one : σ → Except ε (Text × σ)} {ε' : Type} {one' : σ → Except ε' (Text × σ)}
    {words : List Text} (h : Series one s words s')
    (hone : ∀ s r, one s = .ok r → one' s = .ok r) : Series one' s words s' := by
  induction h with
  | nil s => exact .nil s
  | cons hw _ ih => exact .cons (hone _ _ hw) ih

private theorem exists_series (hone : ∀ s, ∃ w s', one s = .ok (w, s')) (n : Nat) (s : σ) :
    ∃ words s', Series one s words s' ∧ words.length = n ∧
      collect one n s = ⟨words, none, s'⟩ := by
  induction n generalizing s with
  | zero => exact ⟨[], s, .nil s, rfl, rfl⟩
  | succ n ih =>
    obtain ⟨w, s₁, hw⟩ := hone s
    obtain ⟨words, s₂, hseries, hlength, hcollect⟩ := ih s₁
    refine ⟨w :: words, s₂, .cons hw hseries, by rw [List.length_cons, hlength], ?_⟩
    simp only [collect, hw, hcollect]

private theorem collect_of_error (hs : one s = .error e) {n : Nat} (hn : 0 < n) :
    collect one n s = ⟨[], some e, s⟩ := by
  obtain ⟨n, rfl⟩ := Nat.exists_eq_add_of_le' hn
  simp only [collect, hs]

end Samples

namespace Grammar

variable {σ : Type} {choose : Chooser σ} {g : Grammar}

private theorem sample_none_cases (hchoose : choose.InRange) (hg : g.WellFormed) :
    ((∃ w, g.derives w = .ok true) ∧
      ∀ depth s, ∃ w s', g.sample choose none depth s = .ok (w, s')) ∨
    (¬ ∃ w, g.derives w = .ok true) ∧ ∃ e, ∀ depth s, g.sample choose none depth s = .error e := by
  simp only [derives_eq_true_iff hg]
  cases hx : g.start with
  | none =>
    refine .inr ⟨by simp, .noStart, ?_⟩
    intro depth s
    exact (sample_none_eq_noStart hchoose).mpr hx
  | some x =>
    simp only [sample_none_of_start hx]
    by_cases hw : ∃ w, g.Generates x w
    · obtain ⟨w, hgen⟩ := hw
      exact .inl ⟨⟨w, x, rfl, hgen⟩, fun _ _ => (exists_sampleFrom_iff hchoose).mpr ⟨w, hgen⟩⟩
    · refine .inr ⟨?_, .barren x, ?_⟩
      · rintro ⟨w, y, hy, hgen⟩
        obtain rfl := Option.some.inj hy
        exact hw ⟨w, hgen⟩
      · intro depth s
        exact (sampleFrom_eq_barren hchoose).mpr ⟨hg.start_mem x hx, hw⟩

/-- Of a number of words all are grown, or none because the first one cannot be. -/
theorem collect_cases (hchoose : choose.InRange) (hg : g.WellFormed) (depth n : Nat) (s : σ) :
    ((n = 0 ∨ ∃ w, g.derives w = .ok true) ∧
      ∃ words s', Samples.Series (g.sample choose none depth) s words s' ∧ words.length = n ∧
        Samples.collect (g.sample choose none depth) n s = ⟨words, none, s'⟩) ∨
    (0 < n ∧ (¬ ∃ w, g.derives w = .ok true) ∧
      ∃ e, g.sample choose none depth s = .error e ∧
        Samples.collect (g.sample choose none depth) n s = ⟨[], some e, s⟩) := by
  rcases sample_none_cases hchoose hg with ⟨hw, hall⟩ | ⟨hno, e, herror⟩
  · exact .inl ⟨.inr hw, Samples.exists_series (hall depth) n s⟩
  · rcases Nat.eq_zero_or_pos n with rfl | hn
    · exact .inl ⟨.inl rfl, [], s, .nil s, rfl, rfl⟩
    · exact .inr ⟨hn, hno, e, herror depth s, Samples.collect_of_error (herror depth s) hn⟩

end Grammar

end ChomskyNormal
