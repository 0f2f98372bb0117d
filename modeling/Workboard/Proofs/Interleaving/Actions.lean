import Workboard.Proofs.Interleaving.Protocol

/-!
# Actions that keep a protocol

How the parts of an action keep a protocol, so that an action is followed part by part.
Each statement names what is known when its call is made and asks for what follows
from the answer. Main statement: a file is replaced by one renaming, which finds
whatever is known to be stable, and before it nobody else has seen anything.
-/
namespace Workboard.Protocol

variable {ι α β : Type} {P : Protocol ι} {i : ι} {permit : Memo → Call → Files → Prop}
  {mid : Sight ι → Prop} {m : Memo} {v : Sight ι} {A : Sight ι → Prop}

theorem keeps_pure {post : Except Error α → Memo → Sight ι → Prop} {a : α}
    (h : post (.ok a) m v) : P.Keeps i permit mid post (pure a : Action α).run m v := h

theorem keeps_throw {post : Except Error α → Memo → Sight ι → Prop} {e : Error}
    (h : post (.error e) m v) : P.Keeps i permit mid post (throw e : Action α).run m v := h

theorem keeps_settle {post : Except Error α → Memo → Sight ι → Prop} {r : Except Error α}
    (h : post r m v) : P.Keeps i permit mid post (Action.settle r).run m v := h

/-- What is asked of the first of two actions. -/
def Then (P : Protocol ι) (i : ι) (permit : Memo → Call → Files → Prop) (mid : Sight ι → Prop)
    (post : Except Error β → Memo → Sight ι → Prop) (f : α → Action β) :
    Except Error α → Memo → Sight ι → Prop
  | .ok a => P.Keeps i permit mid post (f a).run
  | .error e => post (.error e)

theorem keeps_bind {post : Except Error β → Memo → Sight ι → Prop} {a : Action α}
    {f : α → Action β} (h : P.Keeps i permit mid (P.Then i permit mid post f) a.run m v) :
    P.Keeps i permit mid post (a >>= f).run m v := by
  refine Keeps.bind (h.mono fun r m v hr => ?_)
  cases r with
  | ok a => exact hr
  | error e => exact hr

theorem keeps_attempt {post : Except Error (Except Error α) → Memo → Sight ι → Prop}
    {a : Action α} (h : P.Keeps i permit mid (fun r => post (.ok r)) a.run m v) :
    P.Keeps i permit mid post (Action.attempt a).run m v :=
  Keeps.bind (p := a.run) (f := fun r => pure (Except.ok r)) h

theorem keeps_orFail {post : Except Error α → Memo → Sight ι → Prop}
    {a : Action (Except Failure α)}
    (h : P.Keeps i permit mid (fun
      | .ok (.ok x) => post (.ok x)
      | .ok (.error failure) => post (.error (.storage failure.message))
      | .error e => post (.error e)) a.run m v) :
    P.Keeps i permit mid post (Action.orFail a).run m v := by
  refine keeps_bind (h.mono fun r m v hr => ?_)
  cases r with
  | ok r =>
    cases r with
    | ok x => exact hr
    | error failure => exact hr
  | error e => exact hr

theorem keeps_ask {c : Call} {post : Except Error c.Answer → Memo → Sight ι → Prop}
    (h : P.Keeps i permit mid (fun r => post (.ok r)) (Program.call c) m v) :
    P.Keeps i permit mid post (Action.ask c).run m v := h

/-- A change of one public file leaves all hidden ones. -/
theorem grants_of_public {u : Sight ι} {names : List String} {c : Call} {g : Files}
    (hp : IsPublic names) (hg : ∀ other, other ≠ names → g.text? other = u.files.text? other)
    (hrely : ∀ j, j ≠ i → P.rely j u (u.after i c g)) : P.Grants i m u (u.after i c g) := by
  refine ⟨hrely, fun t other hn _ => hg other ?_⟩
  rintro rfl
  exact hp t hn

theorem keeps_now (hA : P.Stable i A) (hmid : ∀ v, A v → mid v)
    {post : Except Error Instant → Memo → Sight ι → Prop} (hv : A v)
    (hpost : ∀ t u, A u → post (.ok t) { m with clock := some t } u) :
    P.Keeps i permit mid post Action.now.run m v :=
  keeps_ask (c := .now) (keeps_look (c := .now) hA hmid trivial hv fun _ t _ _ _ _ hu => hpost t _ hu)

theorem keeps_token (hA : P.Stable i A) (hmid : ∀ v, A v → mid v)
    {post : Except Error String → Memo → Sight ι → Prop} (hv : A v)
    (hpost : ∀ t u, A u → post (.ok t) { m with token := some t } u) :
    P.Keeps i permit mid post Action.token.run m v :=
  keeps_ask (c := .token) (keeps_look (c := .token) hA hmid trivial hv fun _ t _ _ _ _ hu => hpost t _ hu)

theorem keeps_read {p : Path} (hA : P.Stable i A) (hmid : ∀ v, A v → mid v)
    {post : Except Error (Except Failure String) → Memo → Sight ι → Prop} (hv : A v)
    (hpost : ∀ u, A u → permit m (.read p) u.files → A (u.after i (.read p) u.files) →
      post (.ok (u.files.read p)) { m with content := u.files.text? p.names }
        (u.after i (.read p) u.files)) :
    P.Keeps i permit mid post (Action.read p).run m v := by
  refine keeps_ask (c := .read p) (keeps_look (c := .read p) hA hmid trivial hv fun u r _ hu hp hy hu' => ?_)
  obtain ⟨rfl, -⟩ := hy.read
  have h := hpost u hu hp hu'
  rw [← Files.toOption_read] at h
  exact h

theorem keeps_present {p : Path} (hA : P.Stable i A) (hmid : ∀ v, A v → mid v)
    {post : Except Error Bool → Memo → Sight ι → Prop} (hv : A v)
    (hpost : ∀ u, A u → post (.ok (u.files.present p)) m u) :
    P.Keeps i permit mid post (Action.present p).run m v := by
  refine keeps_ask (c := .present p) (keeps_look (c := .present p) hA hmid trivial hv fun u r _ _ _ hy hu' => ?_)
  obtain ⟨rfl, -⟩ := hy.present
  exact hpost _ hu'

theorem keeps_list {p : Path} (hA : P.Stable i A) (hmid : ∀ v, A v → mid v)
    {post : Except Error (List String) → Memo → Sight ι → Prop} (hv : A v)
    (hpost : ∀ u, A u → post (.ok (u.files.list p)) m u) :
    P.Keeps i permit mid post (Action.orFail (Action.list p)).run m v := by
  refine keeps_orFail (keeps_ask (c := .list p) (keeps_look (c := .list p) hA hmid trivial hv
    fun u r _ _ _ hy hu' => ?_))
  obtain ⟨rfl, -⟩ := hy.list
  exact hpost _ hu'

/-- Put a new file in its place, or find one there, or be refused. -/
theorem keeps_createNew {p : Path} {s : String} (hA : P.Stable i A) (hmid : ∀ v, A v → mid v)
    (hpub : IsPublic p.names) {post : Except Error Bool → Memo → Sight ι → Prop} (hv : A v)
    (hnew : ∀ u, A u → permit m (.createNew p s) u.files → u.files.text? p.names = none →
      (∀ j, j ≠ i → P.rely j u (u.after i (.createNew p s) (u.files.put p.names s))) ∧
        post (.ok true) m (u.after i (.createNew p s) (u.files.put p.names s)))
    (hold : ∀ u, A u → (u.files.text? p.names).isSome →
      (∀ j, j ≠ i → P.rely j u (u.after i (.createNew p s) u.files)) ∧
        post (.ok false) m (u.after i (.createNew p s) u.files))
    (hfail : ∀ u, A u → p.names ∈ u.files.refusing →
      (∀ j, j ≠ i → P.rely j u (u.after i (.createNew p s) u.files)) ∧
        ∀ e, post (.error e) m (u.after i (.createNew p s) u.files)) :
    P.Keeps i permit mid post (Action.orFail (Action.createNew p s)).run m v := by
  refine keeps_orFail (keeps_ask (c := .createNew p s) fun u hr => ?_)
  have hu := hA v u hr.rely hv
  refine ⟨hmid u hu, fun hp r g hy => ?_⟩
  obtain ⟨rfl, rfl⟩ := hy.createNew
  simp only [Files.createNew]
  split
  · rename_i href
    obtain ⟨hrely, herr⟩ := hfail u hu href
    exact ⟨grants_of_public hpub (fun _ _ => rfl) hrely, herr _⟩
  · cases ht : u.files.text? p.names with
    | some old =>
      obtain ⟨hrely, hpost⟩ := hold u hu (by simp [ht])
      exact ⟨grants_of_public hpub (fun _ _ => rfl) hrely, hpost⟩
    | none =>
      obtain ⟨hrely, hpost⟩ := hnew u hu hp ht
      refine ⟨grants_of_public hpub (fun other ho => ?_) hrely, hpost⟩
      rw [Files.text?_put, if_neg ho]

/-- Remove a public file, or find none. -/
theorem keeps_remove {p : Path} (hA : P.Stable i A) (hmid : ∀ v, A v → mid v)
    (hpub : IsPublic p.names) {post : Except Error Bool → Memo → Sight ι → Prop} (hv : A v)
    (hgone : ∀ u, A u → (u.files.text? p.names).isSome →
      (∀ j, j ≠ i → P.rely j u (u.after i (.remove p) (u.files.erase p.names))) ∧
        post (.ok true) m (u.after i (.remove p) (u.files.erase p.names)))
    (hnone : ∀ u, A u → u.files.text? p.names = none →
      (∀ j, j ≠ i → P.rely j u (u.after i (.remove p) u.files)) ∧
        post (.ok false) m (u.after i (.remove p) u.files)) :
    P.Keeps i permit mid post (Action.orFail (Action.remove p)).run m v := by
  refine keeps_orFail (keeps_ask (c := .remove p) fun u hr => ?_)
  have hu := hA v u hr.rely hv
  refine ⟨hmid u hu, fun _ r g hy => ?_⟩
  obtain ⟨rfl, rfl⟩ := hy.remove
  simp only [Files.remove]
  cases ht : u.files.text? p.names with
  | some old =>
    obtain ⟨hrely, hpost⟩ := hgone u hu (by simp [ht])
    refine ⟨grants_of_public hpub (fun other ho => ?_) hrely, hpost⟩
    rw [Files.text?_erase, if_neg ho]
  | none =>
    obtain ⟨hrely, hpost⟩ := hnone u hu ht
    exact ⟨grants_of_public hpub (fun _ _ => rfl) hrely, hpost⟩

/-- The files after a hidden file was renamed into its place. -/
def renamed (f : Files) (source target : List String) (s : String) : Files :=
  (f.erase source).put target s

/-- Replace a public file. What holds throughout is `A`; what the rules ask of the new text
is `W`. The others see nothing before the renaming. There is no error if nothing is refused. -/
theorem keeps_replace {p : Path} {s : String} {W : Prop} (hA : P.Stable i A)
    (hmid : ∀ v, A v → mid v) (hpub : IsPublic p.names)
    {post : Except Error Unit → Memo → Sight ι → Prop} (hv : A v)
    (hwrite : ∀ t f, permit { m with token := some t } (.write (p.staged t) s) f → W)
    (hmove : ∀ u t, A u → W → p.names ∉ u.files.refusing →
      (∀ j, j ≠ i → P.rely j u (u.after i (.rename (p.staged t) p)
        (renamed u.files (p.staged t).names p.names s))) ∧
      ∀ m, post (.ok ()) m (u.after i (.rename (p.staged t) p)
        (renamed u.files (p.staged t).names p.names s)))
    (hfail : ∀ u t, A u → p.names ∈ u.files.refusing →
      (∀ j, j ≠ i → P.rely j u (u.after i (.rename (p.staged t) p) u.files)) ∧
        A (u.after i (.rename (p.staged t) p) u.files))
    (herr : ∀ u, A u → u.files.refusing ≠ [] → ∀ e m w, A w → post (.error (.storage e)) m w) :
    P.Keeps i permit mid post (Action.replace p s).run m v := by
  refine keeps_bind (keeps_token hA hmid hv fun t u hu => ?_)
  have hhidden := hiddenBy_staged p t
  refine keeps_bind (keeps_orFail (keeps_ask (c := .write (p.staged t) s) fun u₁ hr₁ => ?_))
  have hu₁ := hA u u₁ hr₁.rely hu
  refine ⟨hmid u₁ hu₁, fun hp r g hy => ?_⟩
  have hshy : (Call.write (p.staged t) s).Shy (some t) := .inr ⟨t, _, rfl, hhidden, .inl ⟨s, rfl⟩⟩
  refine ⟨grants_of_shy hshy hy, ?_⟩
  have hu₁' := hA u₁ (u₁.after i _ g) (P.shy hshy (hy.text_of_shy hshy).1) hu₁
  obtain ⟨rfl, rfl⟩ := hy.write
  revert hu₁'
  simp only [Files.write]
  split
  · rename_i href
    exact fun hu₁' => herr _ hu₁' (List.ne_nil_of_mem href) _ _ _ hu₁'
  intro hu₁'
  refine keeps_bind (keeps_ask (c := .rename (p.staged t) p) fun u₂ hr₂ => ?_)
  have hu₂ := hA _ u₂ hr₂.rely hu₁'
  refine ⟨hmid u₂ hu₂, fun _ r g hy => ?_⟩
  have htext : u₂.files.text? (p.staged t).names = some s := by
    rw [hr₂.hidden t rfl _ hhidden]
    simp
  obtain ⟨rfl, rfl⟩ := hy.rename
  simp only [Files.rename, htext]
  split
  · rename_i href
    obtain ⟨hrely, hu₃⟩ := hfail u₂ t hu₂ href
    refine ⟨grants_of_public hpub (fun _ _ => rfl) hrely, ?_⟩
    -- the hidden file goes, and the failure is told
    refine keeps_bind (keeps_ask (c := .remove (p.staged t)) fun u₄ hr₄ => ?_)
    have hu₄ := hA _ u₄ hr₄.rely hu₃
    refine ⟨hmid u₄ hu₄, fun _ r g hy => ?_⟩
    have hshy' : (Call.remove (p.staged t)).Shy (some t) := .inr ⟨t, _, rfl, hhidden, .inr rfl⟩
    exact ⟨grants_of_shy hshy' hy, herr u₂ hu₂ (List.ne_nil_of_mem href) _ _ _
      (hA u₄ _ (P.shy hshy' (hy.text_of_shy hshy').1) hu₄)⟩
  · rename_i href
    obtain ⟨hrely, hpost⟩ := hmove u₂ t hu₂ (hwrite _ _ hp) href
    refine ⟨⟨hrely, fun t' names hn hown => ?_⟩, hpost _⟩
    have h₁ : names ≠ p.names := fun h => hpub _ (h ▸ hn)
    have h₂ : names ≠ (p.staged t).names := fun h => hown t rfl (h ▸ hhidden)
    simp [h₁, h₂]

/-- The text at a public path after the renaming. -/
theorem text?_renamed {f : Files} {p : Path} {t s : String} {names : List String}
    (hpub : IsPublic names) : (renamed f (p.staged t).names p.names s).text? names =
      if names = p.names then some s else f.text? names := by
  have h : names ≠ (p.staged t).names := fun h => hpub _ (h ▸ hiddenBy_staged p t)
  simp [renamed, h]

end Workboard.Protocol
