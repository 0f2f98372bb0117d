import Workboard.Proofs.Interleaving.Calls

/-!
# Protocols of parties that take turns

A protocol says for each party what may become of the files while only the others make
calls. A program keeps the protocol if each of its calls does to the files what every
other party expects, however the others have acted in between. Main statement: if the
operation that a party may begin always keeps the protocol, then what the party knows
between its operations holds after every run, and so does what holds during them.
-/
namespace Workboard

/-- What there is to see: the files, and the calls that were made. -/
structure Sight (ι : Type) where
  files : Files
  calls : List (ι × Call)

namespace Sight

/-- What there is to see after a call of a party that left these files. -/
def after {ι : Type} (v : Sight ι) (i : ι) (c : Call) (g : Files) : Sight ι :=
  ⟨g, v.calls ++ [(i, c)]⟩

@[simp] theorem files_after {ι : Type} (v : Sight ι) (i : ι) (c : Call) (g : Files) :
    (v.after i c g).files = g := rfl

@[simp] theorem calls_after {ι : Type} (v : Sight ι) (i : ι) (c : Call) (g : Files) :
    (v.after i c g).calls = v.calls ++ [(i, c)] := rfl

end Sight

structure Protocol (ι : Type) where
  /-- What the others may do, as a party sees it. -/
  rely : ι → Sight ι → Sight ι → Prop
  refl : ∀ i v, rely i v v
  trans : ∀ {i u v w}, rely i u v → rely i v w → rely i u w
  /-- Nobody minds a shy call, be it somebody else's or the own. -/
  shy : ∀ {i j v c g token}, Call.Shy token c → v.files.SamePublic g → rely j v (v.after i c g)

namespace Protocol
variable {ι α β : Type} (P : Protocol ι) (i : ι)

/-- What may become of a sight while a party rests: what it relies on, and its own hidden
files stay. -/
structure Rests (m : Memo) (v u : Sight ι) : Prop where
  rely : P.rely i v u
  hidden : ∀ t, m.token = some t → ∀ names, HiddenBy t names →
    u.files.text? names = v.files.text? names

/-- What a party may do: what all others rely on, and their hidden files stay. -/
structure Grants (m : Memo) (v u : Sight ι) : Prop where
  rely : ∀ j, j ≠ i → P.rely j v u
  hidden : ∀ t names, HiddenBy t names → (∀ t', m.token = some t' → ¬ HiddenBy t' names) →
    u.files.text? names = v.files.text? names

/-- The program keeps the protocol from here: `mid` holds at each of its calls and while it
waits for one, and `post` holds of its result and at its end. -/
def Keeps (permit : Memo → Call → Files → Prop) (mid : Sight ι → Prop)
    (post : α → Memo → Sight ι → Prop) : Program α → Memo → Sight ι → Prop
  | .done a, m, v => post a m v
  | .ask c next, m, v => ∀ u, P.Rests i m v u → mid u ∧
      (permit m c u.files → ∀ r g, c.Yields u.files r g →
        P.Grants i m u (u.after i c g) ∧
          Keeps permit mid post (next r) (m.note c r) (u.after i c g))

variable {P i} {permit : Memo → Call → Files → Prop} {mid : Sight ι → Prop}
  {m : Memo} {u v w : Sight ι}

theorem Rests.refl (P : Protocol ι) (i : ι) (m : Memo) (v : Sight ι) : P.Rests i m v v :=
  ⟨P.refl i v, fun _ _ _ _ => rfl⟩

theorem Rests.trans (huv : P.Rests i m u v) (hvw : P.Rests i m v w) : P.Rests i m u w :=
  ⟨P.trans huv.rely hvw.rely, fun t ht names hn =>
    (hvw.hidden t ht names hn).trans (huv.hidden t ht names hn)⟩

/-- Before its next call a program does not mind a rest. -/
theorem Keeps.rest {c : Call} {next : c.Answer → Program α} {post : α → Memo → Sight ι → Prop}
    (h : P.Keeps i permit mid post (.ask c next) m v) (hr : P.Rests i m v u) :
    P.Keeps i permit mid post (.ask c next) m u :=
  fun w hw => h w (hr.trans hw)

theorem Keeps.mono {p : Program α} {post post' : α → Memo → Sight ι → Prop}
    (h : P.Keeps i permit mid post p m v) (hpost : ∀ a m v, post a m v → post' a m v) :
    P.Keeps i permit mid post' p m v := by
  induction p generalizing m v with
  | done a => exact hpost a m v h
  | ask c next ih =>
    intro u hu
    obtain ⟨hmid, hnext⟩ := h u hu
    refine ⟨hmid, fun hp r g hy => ?_⟩
    obtain ⟨hg, hk⟩ := hnext hp r g hy
    exact ⟨hg, ih r hk⟩

theorem Keeps.mono_mid {p : Program α} {mid' : Sight ι → Prop}
    {post : α → Memo → Sight ι → Prop} (h : P.Keeps i permit mid post p m v)
    (hmid : ∀ v, mid v → mid' v) : P.Keeps i permit mid' post p m v := by
  induction p generalizing m v with
  | done a => exact h
  | ask c next ih =>
    intro u hu
    obtain ⟨hmidu, hnext⟩ := h u hu
    refine ⟨hmid u hmidu, fun hp r g hy => ?_⟩
    obtain ⟨hg, hk⟩ := hnext hp r g hy
    exact ⟨hg, ih r hk⟩

theorem Keeps.bind {p : Program α} {f : α → Program β} {post : β → Memo → Sight ι → Prop}
    (h : P.Keeps i permit mid (fun a => P.Keeps i permit mid post (f a)) p m v) :
    P.Keeps i permit mid post (p >>= f) m v := by
  change P.Keeps i permit mid post (p.bind f) m v
  induction p generalizing m v with
  | done a => exact h
  | ask c next ih =>
    intro u hu
    obtain ⟨hmid, hnext⟩ := h u hu
    refine ⟨hmid, fun hp r g hy => ?_⟩
    obtain ⟨hg, hk⟩ := hnext hp r g hy
    exact ⟨hg, ih r hk⟩

/-- A shy call of the own is granted. -/
theorem grants_of_shy {c : Call} {r : c.Answer} {g : Files} (hc : c.Shy m.token)
    (hy : c.Yields v.files r g) : P.Grants i m v (v.after i c g) := by
  obtain ⟨hsame, htext⟩ := hy.text_of_shy hc
  exact ⟨fun j _ => P.shy hc hsame, fun _ names _ hn => htext names hn⟩

/-- What holds while only others act. -/
def Stable (P : Protocol ι) (i : ι) (A : Sight ι → Prop) : Prop :=
  ∀ u v, P.rely i u v → A u → A v

theorem Stable.and {A B : Sight ι → Prop} (hA : P.Stable i A) (hB : P.Stable i B) :
    P.Stable i fun v => A v ∧ B v :=
  fun u v h huv => ⟨hA u v h huv.1, hB u v h huv.2⟩

/-- One call that only looks, begun where `A` holds. -/
theorem keeps_look {A : Sight ι → Prop} (hA : P.Stable i A) (hmid : ∀ v, A v → mid v)
    {c : Call} (hc : c.Looks) {post : c.Answer → Memo → Sight ι → Prop} (hv : A v)
    (hpost : ∀ u r, P.Rests i m v u → A u → permit m c u.files → c.Yields u.files r u.files →
      A (u.after i c u.files) → post r (m.note c r) (u.after i c u.files)) :
    P.Keeps i permit mid post (Program.call c) m v := by
  intro u hu
  have hAu := hA v u hu.rely hv
  refine ⟨hmid u hAu, fun hp r g hy => ?_⟩
  obtain rfl := hy.eq_of_looks hc
  have hshy : c.Shy m.token := .inl hc
  exact ⟨grants_of_shy hshy hy, hpost u r hu hAu hp hy
    (hA u _ (P.shy hshy (.refl _)) hAu)⟩

end Protocol

/-- For each party what holds between its operations, what holds during one, and that
every operation it may begin keeps to both. -/
structure Contract {ι Op ρ : Type} (R : Rules ι Op ρ) (P : Protocol ι) where
  idle : ι → List (Op × ρ) → Sight ι → Prop
  mid : ι → List (Op × ρ) → Op → Sight ι → Prop
  stable : ∀ i past, P.Stable i (idle i past)
  begins : ∀ {i past op v}, idle i past v → R.may i past op →
    P.Keeps i (R.permit i) (mid i past op) (fun a _ => idle i (past ++ [(op, a)])) (R.body i op)
      {} v

/-- What there is to see of a scene. -/
def Scene.sight {ι Op ρ : Type} (s : Scene ι Op ρ) : Sight ι := ⟨s.world.store, s.calls⟩

namespace Contract
variable {ι Op ρ : Type} {R : Rules ι Op ρ} {P : Protocol ι}

/-- A party is where its contract leads it. -/
def Stands (K : Contract R P) (i : ι) (p : Party Op ρ) (v : Sight ι) : Prop :=
  match p.current with
  | none => K.idle i p.past v
  | some r => (∃ c next, r.program = .ask c next) ∧
      P.Keeps i (R.permit i) (K.mid i p.past r.op)
        (fun a _ => K.idle i (p.past ++ [(r.op, a)])) r.program r.memo v

/-- All parties are where their contracts lead them, with tokens of their own. -/
structure Sound (K : Contract R P) (s : Scene ι Op ρ) : Prop where
  stands : ∀ i, K.Stands i (s.party i) s.sight
  known : ∀ i t, (s.party i).token = some t → ∃ n ≤ s.world.tokens, t = World.tokenText n
  apart : ∀ i j t, i ≠ j → (s.party i).token = some t → (s.party j).token ≠ some t

variable {K : Contract R P} {s : Scene ι Op ρ}

theorem stands_resume {i : ι} {p : Party Op ρ} {r : Running Op ρ} {v : Sight ι}
    (h : P.Keeps i (R.permit i) (K.mid i p.past r.op)
      (fun a _ => K.idle i (p.past ++ [(r.op, a)])) r.program r.memo v) :
    K.Stands i (p.resume r) v := by
  obtain ⟨op, memo, program⟩ := r
  cases program with
  | done a => exact h
  | ask c next => exact ⟨⟨c, next, rfl⟩, h⟩

theorem Stands.rest {i : ι} {p : Party Op ρ} {u v : Sight ι} (h : K.Stands i p v)
    (hrely : P.rely i v u)
    (hhidden : ∀ t, p.token = some t → ∀ names, HiddenBy t names →
      u.files.text? names = v.files.text? names) : K.Stands i p u := by
  obtain ⟨past, current⟩ := p
  cases current with
  | none => exact K.stable i past v u hrely h
  | some r =>
    obtain ⟨op, memo, program⟩ := r
    obtain ⟨⟨c, next, rfl⟩, hk⟩ := h
    exact ⟨⟨c, next, rfl⟩, hk.rest ⟨hrely, hhidden⟩⟩

theorem token_resume {p : Party Op ρ} {r : Running Op ρ} {t : String}
    (h : (p.resume r).token = some t) : r.memo.token = some t := by
  obtain ⟨op, memo, program⟩ := r
  cases program with
  | done a => simp [Party.resume, Party.token] at h
  | ask c next => simpa [Party.resume, Party.token] using h

/-- A token in the memo was there before, or the world has just given it out. -/
theorem token_note {m : Memo} {c : Call} {w : World Files} {t : String}
    (h : (m.note c (w.answer c).1).token = some t) :
    m.token = some t ∨
      t = World.tokenText (w.tokens + 1) ∧ (w.answer c).2.tokens = w.tokens + 1 := by
  cases c with
  | token => exact .inr ⟨(Option.some.inj h).symm, rfl⟩
  | now => exact .inl h
  | freshId => exact .inl h
  | read p => exact .inl h
  | write p s => exact .inl h
  | createNew p s => exact .inl h
  | rename p q => exact .inl h
  | remove p => exact .inl h
  | present p => exact .inl h
  | list p => exact .inl h

theorem tokens_le_answer (c : Call) (w : World Files) : w.tokens ≤ (w.answer c).2.tokens := by
  cases c <;> simp [World.answer, World.withStore]

theorem sound_start {w : World Files} (h : ∀ i, K.idle i [] ⟨w.store, []⟩) :
    K.Sound (.start w) :=
  ⟨h, fun i t ht => by simp [Scene.start, Party.token] at ht,
    fun i j t _ ht => by simp [Scene.start, Party.token] at ht⟩

/-- A token that the world has not yet given out is nobody's. -/
theorem Sound.token_ne (h : K.Sound s) {i : ι} {t : String} (ht : (s.party i).token = some t) :
    t ≠ World.tokenText (s.world.tokens + 1) := by
  rintro rfl
  obtain ⟨n, hn, heq⟩ := h.known i _ ht
  have := tokenText_injective heq
  omega

section Call
variable {i : ι} {op : Op} {memo : Memo} {c : Call} {next : c.Answer → Program ρ}
  (hcur : (s.party i).current = some ⟨op, memo, .ask c next⟩)
include hcur

/-- The token of a party that has made a call is new, or it was its token before. -/
theorem token_after {t : String} (ht : ((s.party i).resume ⟨op, memo.note c (s.world.answer c).1,
      next (s.world.answer c).1⟩).token = some t) :
    (s.party i).token = some t ∨
      t = World.tokenText (s.world.tokens + 1) ∧ (s.world.answer c).2.tokens = s.world.tokens + 1 := by
  have htoken : (s.party i).token = memo.token := by simp [Party.token, hcur]
  rw [htoken]
  exact token_note (token_resume ht)

/-- A call of one party leaves the others where they stand: the files they rely on are as they
were, and those hidden under their tokens are not touched. -/
theorem Sound.stands_after (h : K.Sound s) {v : Sight ι} (hgrant : P.Grants i memo s.sight v) {j : ι} (hji : j ≠ i) :
    K.Stands j (s.party j) v := by
  have htoken : (s.party i).token = memo.token := by simp [Party.token, hcur]
  refine (h.stands j).rest (hgrant.rely j hji) fun t ht names hn => ?_
  refine hgrant.hidden t names hn fun t' ht' hn' => ?_
  obtain ⟨a, -, rfl⟩ := h.known j t ht
  obtain ⟨b, -, rfl⟩ := h.known i t' (htoken.trans ht')
  obtain rfl := hn.token_eq hn'
  exact h.apart j i _ hji ht (htoken.trans ht')

end Call

variable [DecidableEq ι]

theorem sound_begin (h : K.Sound s) {i : ι} {op : Op} (hallow : R.Allows s (.begin i op)) :
    K.Sound (R.act s (.begin i op)) := by
  obtain ⟨hidle, hmay⟩ := hallow
  have hstand := h.stands i
  rw [Stands, hidle] at hstand
  have hnone : ∀ t, ((s.party i).resume ⟨op, {}, R.body i op⟩).token ≠ some t := by
    intro t ht
    cases token_resume ht
  refine ⟨fun j => ?_, fun j t ht => ?_, fun j k t hjk hj hk => ?_⟩
  · simp only [Rules.act, Scene.setParty, Function.update_apply]
    split
    · subst j
      exact stands_resume (K.begins hstand hmay)
    · exact h.stands j
  · simp only [Rules.act, Scene.setParty, Function.update_apply] at ht
    split at ht
    · exact absurd ht (hnone t)
    · exact h.known j t ht
  · simp only [Rules.act, Scene.setParty, Function.update_apply] at hj hk
    split at hj
    · exact hnone t hj
    · split at hk
      · exact hnone t hk
      · exact h.apart j k t hjk hj hk

theorem sound_call (h : K.Sound s) {i : ι} (hallow : R.Allows s (.call i)) :
    K.Sound (R.act s (.call i)) := by
  obtain ⟨op, memo, c, next, hcur, hpermit⟩ := hallow
  have hstand := h.stands i
  rw [Stands, hcur] at hstand
  obtain ⟨-, hnext⟩ := hstand.2 s.sight (.refl P i memo s.sight)
  obtain ⟨hgrant, hkeep⟩ := hnext hpermit _ _ (c.yields_answer s.world)
  have hmore := tokens_le_answer c s.world
  rw [R.act_call hcur]
  refine ⟨fun j => ?_, fun j t ht => ?_, fun j k t hjk hj hk => ?_⟩
  · simp only [Function.update_apply]
    split
    · subst j
      exact stands_resume hkeep
    · rename_i hji
      exact h.stands_after hcur hgrant hji
  · simp only [Function.update_apply] at ht
    split at ht
    · subst j
      rcases token_after hcur ht with ht | ⟨rfl, hcount⟩
      · obtain ⟨n, hn, rfl⟩ := h.known i t ht
        exact ⟨n, Nat.le_trans hn hmore, rfl⟩
      · exact ⟨_, Nat.le_of_eq hcount.symm, rfl⟩
    · obtain ⟨n, hn, rfl⟩ := h.known j t ht
      exact ⟨n, Nat.le_trans hn hmore, rfl⟩
  · simp only [Function.update_apply] at hj hk
    split at hj
    · subst j
      rw [if_neg (Ne.symm hjk)] at hk
      rcases token_after hcur hj with hj | ⟨rfl, -⟩
      · exact h.apart i k t hjk hj hk
      · exact h.token_ne hk rfl
    · split at hk
      · subst k
        rcases token_after hcur hk with hk | ⟨rfl, -⟩
        · exact h.apart j i t hjk hj hk
        · exact h.token_ne hj rfl
      · exact h.apart j k t hjk hj hk

theorem sound_act (m : Move ι Op) (h : K.Sound s) (hallow : R.Allows s m) :
    K.Sound (R.act s m) := by
  cases m with
  | begin i op => exact sound_begin h hallow
  | call i => exact sound_call h hallow
  | clock t => exact ⟨h.stands, h.known, h.apart⟩

/-- Contracts that hold at the start are kept by every run. -/
theorem sound_run {w : World Files} (h : ∀ i, K.idle i [] ⟨w.store, []⟩)
    {ms : List (Move ι Op)} (hrun : R.Follows (.start w) ms) : K.Sound (R.run (.start w) ms) :=
  Rules.run_induction (fun _ m hs ha => sound_act m hs ha) (sound_start h) hrun

/-- After every run a party is between two operations and knows what it may know there, or
it is in one, during which `mid` holds. -/
theorem idle_or_mid {w : World Files} (h : ∀ i, K.idle i [] ⟨w.store, []⟩)
    {ms : List (Move ι Op)} (hrun : R.Follows (.start w) ms) (i : ι) :
    match ((R.run (.start w) ms).party i).current with
    | none => K.idle i ((R.run (.start w) ms).party i).past (R.run (.start w) ms).sight
    | some r => K.mid i ((R.run (.start w) ms).party i).past r.op (R.run (.start w) ms).sight := by
  have hs := (sound_run h hrun).stands i
  simp only [Stands] at hs
  split at hs
  · rename_i hc
    simpa only [hc] using hs
  · rename_i r hc
    obtain ⟨⟨c, next, hp⟩, hk⟩ := hs
    rw [hp] at hk
    simpa only [hc] using (hk _ (.refl P i _ _)).1

end Contract

end Workboard
