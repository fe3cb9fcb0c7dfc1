import DvivonOS.Lib.Bytes

/-!
# Two-level paging with a translation cache

A directory is a frame of 1024 entries of 32 bits, each of which names the frame of a table; a table
is a frame of 1024 entries that name the frames of pages. Bit 0 of an entry says that it is present,
bit 8 that a translation found through it is global. `lookup` is the walk of the processor.

The cache keeps at most one translation for each page. What it loads and drops by itself is up to
the hardware: `Mmu.hw` says it for every point in time and every directory, so that a statement for
all `hw` is one for every content the cache can have. A write of `cr3` drops what is not global,
`invlpg` drops one page. Without a cache (`NoCache`) every access walks the tables.

A computation is specified from a `View`, the part of the state that programs see, and a `Stale`,
what is known of the cache: `Spec`, with one rule for each operation.
-/

namespace DvivonOS.Paging

open Bytes Function

/-! ## Tables -/

def frameOf (e : ℕ) : ℕ := e / 4096 * 4096

def IsPresent (e : ℕ) : Prop := e % 2 = 1

instance (e : ℕ) : Decidable (IsPresent e) := inferInstanceAs (Decidable (e % 2 = 1))

def isGlobal (e : ℕ) : Bool := e / 256 % 2 = 1

def entry (mem : Bytes) (table i : ℕ) : ℕ := mem.get32 (table + 4 * i)

structure Translation where
  frame : ℕ
  isGlobal : Bool
  deriving DecidableEq

/-- The walk: the translation of a page under a directory. -/
def lookup (mem : Bytes) (dir page : ℕ) : Option Translation :=
  let pde := entry mem dir (page / 1024)
  let pte := entry mem (frameOf pde) (page % 1024)
  if IsPresent pde ∧ IsPresent pte then some ⟨frameOf pte, isGlobal pte⟩ else none

def isWritable (e : ℕ) : Bool := e / 2 % 2 = 1

def isUser (e : ℕ) : Bool := e / 4 % 2 = 1

/-- What the processor finds for an address: the physical address, and the rights that both levels
give. -/
structure Reached where
  addr : ℕ
  writable : Bool
  user : Bool
  deriving DecidableEq

/-- The walk with its rights. -/
def pageWalk (mem : Bytes) (dir a : ℕ) : Option Reached :=
  let pde := entry mem dir (a / 2 ^ 22)
  let pte := entry mem (frameOf pde) (a / 4096 % 1024)
  if IsPresent pde ∧ IsPresent pte then
    some ⟨frameOf pte + a % 4096, isWritable pde && isWritable pte, isUser pde && isUser pte⟩
  else none

theorem lookup_of_address (mem : Bytes) (dir a : ℕ) : lookup mem dir (a / 4096) =
    if IsPresent (entry mem dir (a / 2 ^ 22)) ∧
      IsPresent (entry mem (frameOf (entry mem dir (a / 2 ^ 22))) (a / 4096 % 1024)) then
      some ⟨frameOf (entry mem (frameOf (entry mem dir (a / 2 ^ 22))) (a / 4096 % 1024)),
        isGlobal (entry mem (frameOf (entry mem dir (a / 2 ^ 22))) (a / 4096 % 1024))⟩
    else none := by
  simp only [lookup, show a / 4096 / 1024 = a / 2 ^ 22 by omega]

theorem pageWalk_eq_lookup (mem : Bytes) (dir a : ℕ) :
    (pageWalk mem dir a).map (·.addr) = (lookup mem dir (a / 4096)).map (·.frame + a % 4096) := by
  rw [lookup_of_address]
  simp only [pageWalk]
  split <;> rfl

/-- A frame starts at a multiple of its size. -/
def Aligned (f : ℕ) : Prop := f % 4096 = 0

theorem aligned_frameOf (e : ℕ) : Aligned (frameOf e) := by
  unfold Aligned frameOf
  omega

theorem frameOf_add {f k : ℕ} (hf : Aligned f) (hk : k < 4096) : frameOf (f + k) = f := by
  unfold Aligned at hf
  unfold frameOf
  omega

theorem Aligned.frameOf_eq {f : ℕ} (hf : Aligned f) : frameOf f = f :=
  frameOf_add (k := 0) hf (by norm_num)

theorem isPresent_add {f k : ℕ} (hf : Aligned f) (hk : k % 2 = 1) : IsPresent (f + k) := by
  unfold Aligned at hf
  unfold IsPresent
  omega

/-! ## Writes to frames -/

/-- Two memories differ in frame `f` only. -/
def OnlyIn (f : ℕ) (mem mem' : Bytes) : Prop := ∀ a, frameOf a ≠ f → mem' a = mem a

section Frames

variable {mem mem' mem'' : Bytes} {f t t' i i' : ℕ}

theorem OnlyIn.refl (f : ℕ) (mem : Bytes) : OnlyIn f mem mem := fun _ _ => rfl

theorem OnlyIn.trans (h : OnlyIn f mem mem') (h' : OnlyIn f mem' mem'') : OnlyIn f mem mem'' :=
  fun a ha => (h' a ha).trans (h a ha)

theorem onlyIn_put8 {a : ℕ} (b : UInt8) : OnlyIn (frameOf a) mem (mem.put8 a b) := by
  intro a' ha'
  exact put8_of_ne _ _ fun h => ha' (h ▸ rfl)

theorem onlyIn_put32 (ht : Aligned t) (hi : i < 1024) (w : ℕ) :
    OnlyIn t mem (mem.put32 (t + 4 * i) w) := by
  intro a ha
  unfold Aligned at ht
  unfold frameOf at ha
  exact put32_of_not_mem _ _ (by omega)

theorem onlyIn_fill (ht : Aligned t) (b : UInt8) {n : ℕ} (hn : n ≤ 4096) :
    OnlyIn t mem (mem.fill t b n) := by
  intro a ha
  unfold Aligned at ht
  unfold frameOf at ha
  exact fill_of_not_mem _ _ (by omega)

theorem OnlyIn.entry (h : OnlyIn f mem mem') (ht : Aligned t) (hne : t ≠ f) (hi : i < 1024) :
    entry mem' t i = entry mem t i := by
  unfold Aligned at ht
  refine get32_congr fun a h₁ h₂ => h a ?_
  unfold frameOf
  omega

theorem entry_put32_self {w : ℕ} (hw : w < 2 ^ 32) :
    entry (mem.put32 (t + 4 * i) w) t i = w := get32_put32_of_lt _ _ hw

theorem entry_put32_of_ne (w : ℕ) (hne : i' ≠ i) :
    entry (mem.put32 (t + 4 * i) w) t i' = entry mem t i' := by
  unfold entry
  exact get32_put32_of_disjoint _ _ (by omega)

theorem entry_fill_zero (hi : i < 1024) : entry (mem.fill t 0 4096) t i = 0 := by
  unfold entry
  exact get32_fill_zero _ (by omega) (by omega)

theorem entry_lt (mem : Bytes) (t i : ℕ) : entry mem t i < 2 ^ 32 := get32_lt _ _

end Frames

/-! ## The machine -/

/-- An access: its page, the frame it reached, the directory in `cr3` and the entry of that directory
with the number of the page in the last block. -/
structure Access where
  page : ℕ
  frame : ℕ
  dir : ℕ
  slot : ℕ

/-- The part of the state that programs see; `rest` is what is not memory. -/
structure View (σ : Type) where
  mem : Bytes
  cr3 : ℕ
  rest : σ

structure Mmu (σ : Type) extends View σ where
  tlb : ℕ → Option Translation
  hw : ℕ → ℕ → ℕ → Option Bool
  clock : ℕ
  log : List Access

variable {σ α β : Type}

namespace Mmu

/-- The cache does something by itself: it drops a page, or looks it up (`some true`). -/
def tick (s : Mmu σ) : Mmu σ :=
  { s with
    tlb := fun p =>
      match s.hw s.clock s.cr3 p with
      | none => s.tlb p
      | some true => lookup s.mem s.cr3 p
      | some false => none
    clock := s.clock + 1 }

/-- The translation that an access uses. -/
def reach (s : Mmu σ) (page : ℕ) : Option Translation :=
  match s.tlb page with
  | some t => some t
  | none => lookup s.mem s.cr3 page

def note (s : Mmu σ) (page : ℕ) (t : Translation) : Mmu σ :=
  { s with log := ⟨page, t.frame, s.cr3, entry s.mem s.cr3 (page % 1024)⟩ :: s.log }

end Mmu

inductive PageFault
  | pageFault

/-- Computations on the machine; a fault leaves the state as it is. -/
abbrev MmuM (σ : Type) := ExceptT PageFault (StateM (Mmu σ))

def exec (x : MmuM σ α) (s : Mmu σ) : Except PageFault α × Mmu σ := x.run.run s

/-- The physical address that an access to `v` reaches. -/
def translate (v : ℕ) : MmuM σ ℕ := do
  modify Mmu.tick
  let s ← get
  match s.reach (v / 4096) with
  | none => throw .pageFault
  | some t =>
    set (s.note (v / 4096) t)
    pure (t.frame + v % 4096)

def load32 (v : ℕ) : MmuM σ ℕ := do
  let a ← translate v
  return (← get).mem.get32 a

def load8 (v : ℕ) : MmuM σ UInt8 := do
  let a ← translate v
  return (← get).mem a

def store32 (v w : ℕ) : MmuM σ Unit := do
  let a ← translate v
  modify fun s => { s with mem := s.mem.put32 a w }

def store8 (v : ℕ) (b : UInt8) : MmuM σ Unit := do
  let a ← translate v
  modify fun s => { s with mem := s.mem.put8 a b }

def invlpg (v : ℕ) : MmuM σ Unit :=
  modify fun s => { s.tick with tlb := update s.tick.tlb (v / 4096) none }

def readCr3 : MmuM σ ℕ := return (← get).cr3

def writeCr3 (d : ℕ) : MmuM σ Unit :=
  modify fun s => { s.tick with cr3 := d, tlb := fun p => (s.tick.tlb p).filter (·.isGlobal) }

def onRest (f : σ → α × σ) : MmuM σ α := do
  let s ← get
  set { s with rest := (f s.rest).2 }
  pure (f s.rest).1

/-- `for (i = 0; i < n; i++)`. -/
def repeatTo : ℕ → (ℕ → MmuM σ Unit) → MmuM σ Unit
  | 0, _ => pure ()
  | n + 1, body => do
    repeatTo n body
    body n

/-! ## What is known of the cache -/

/-- For each page the translations that the cache may still hold although the tables say something
else. -/
abbrev Stale := ℕ → Set Translation

def NoCache (s : Mmu σ) : Prop := (∀ p, s.tlb p = none) ∧ ∀ n d p, s.hw n d p = none

/-- A window on the tables: with the directory in its own last slot, page `k` of the last block shows
the table of slot `k`, and the last page the directory. -/
def Access.Right (a : Access) : Prop :=
  a.page / 1024 = 1023 → a.frame = if a.page % 1024 = 1023 then a.dir else frameOf a.slot

/-- With a cache (`b`), every cached translation is that of the tables or one of `A`. -/
def Sync (b : Bool) (A : Stale) (s : Mmu σ) : Prop :=
  if b then ∀ p t, s.tlb p = some t → lookup s.mem s.cr3 p = some t ∨ t ∈ A p else NoCache s

/-- With a cache, every access so far to a window was right. -/
def Logged (b : Bool) (s : Mmu σ) : Prop := b = true → ∀ a ∈ s.log, a.Right

/-- Page `p` is translated as the tables say. -/
def Settled (b : Bool) (A : Stale) (c : View σ) (p : ℕ) : Prop :=
  b = true → ∀ t ∈ A p, lookup c.mem c.cr3 p = some t

/-- The directory is in its own last slot. -/
def SelfMapped (mem : Bytes) (d : ℕ) : Prop :=
  IsPresent (entry mem d 1023) ∧ frameOf (entry mem d 1023) = d

theorem SelfMapped.aligned {mem : Bytes} {d : ℕ} (h : SelfMapped mem d) : Aligned d :=
  h.2 ▸ aligned_frameOf _

theorem SelfMapped.congr {mem mem' : Bytes} {d : ℕ} (h : SelfMapped mem d)
    (he : entry mem' d 1023 = entry mem d 1023) : SelfMapped mem' d := by
  rwa [SelfMapped, he]

theorem selfMapped_of_entry {mem : Bytes} {d k : ℕ} (he : entry mem d 1023 = d + k)
    (hd : Aligned d) (hk : k < 4096) (hodd : k % 2 = 1) : SelfMapped mem d :=
  ⟨he ▸ isPresent_add hd hodd, he ▸ frameOf_add hd hk⟩

/-- What the cache may hold under `c` and `A` it may hold under `c'` and `A'`. -/
def Steps (b : Bool) (A : Stale) (c : View σ) (A' : Stale) (c' : View σ) : Prop :=
  b = true → ∀ p t, lookup c.mem c.cr3 p = some t ∨ t ∈ A p →
    lookup c'.mem c'.cr3 p = some t ∨ t ∈ A' p

section Cache

variable {b : Bool} {A A' : Stale} {s s' : Mmu σ} {c c' : View σ} {p : ℕ}

theorem lookup_last_block {mem : Bytes} {d k : ℕ} (h : SelfMapped mem d) (hk : k < 1024)
    (hp : IsPresent (entry mem d k)) :
    lookup mem d (1023 * 1024 + k) = some ⟨frameOf (entry mem d k), isGlobal (entry mem d k)⟩ := by
  have h₁ : (1023 * 1024 + k) / 1024 = 1023 := by omega
  have h₂ : (1023 * 1024 + k) % 1024 = k := by omega
  simp only [lookup, h₁, h₂, h.2]
  exact if_pos ⟨h.1, hp⟩

theorem lookup_frame_of_last_block {mem : Bytes} {d : ℕ} {t : Translation} (h : SelfMapped mem d)
    (hp : p / 1024 = 1023) (hl : lookup mem d p = some t) :
    t.frame = if p % 1024 = 1023 then d else frameOf (entry mem d (p % 1024)) := by
  simp only [lookup, hp, h.2] at hl
  split at hl
  · cases hl
    split
    case isTrue hlast => rw [hlast, h.2]
    case isFalse => rfl
  · cases hl

theorem lookup_congr_last {mem mem' : Bytes} {d : ℕ} (h : SelfMapped mem d)
    (hp : p / 1024 = 1023) (hself : entry mem' d 1023 = entry mem d 1023)
    (hslot : entry mem' d (p % 1024) = entry mem d (p % 1024)) :
    lookup mem' d p = lookup mem d p := by
  simp only [lookup, hp, hself, h.2, hslot]

theorem Sync.tick (h : Sync b A s) : Sync b A s.tick := by
  cases b with
  | false =>
    refine ⟨fun p => ?_, h.2⟩
    simp only [Mmu.tick, h.2, h.1]
  | true =>
    intro p t ht
    simp only [Mmu.tick] at ht
    split at ht
    · exact h p t ht
    · exact .inl ht
    · cases ht

theorem Sync.reach (h : Sync b A s) (hp : Settled b A s.toView p) :
    s.reach p = lookup s.mem s.cr3 p := by
  unfold Mmu.reach
  cases b with
  | false => rw [h.1]
  | true =>
    cases ht : s.tlb p with
    | none => rfl
    | some t =>
      obtain hl | hs := h p t ht
      · exact hl.symm
      · exact (hp rfl t hs).symm

/-- The cache has dropped some translations, and the tables have changed. -/
theorem Sync.steps (h : Sync b A s) (hst : Steps b A s.toView A' s'.toView)
    (htlb : ∀ p t, s'.tlb p = some t → s.tlb p = some t) (hhw : s'.hw = s.hw) : Sync b A' s' := by
  cases b with
  | false =>
    refine ⟨fun p => Option.eq_none_iff_forall_ne_some.mpr fun t ht => ?_, hhw ▸ h.2⟩
    exact absurd (h.1 p) (by rw [htlb p t ht]; simp)
  | true => exact fun p t ht => hst rfl p t (h p t (htlb p t ht))

theorem Steps.refl (b : Bool) (A : Stale) (c : View σ) : Steps b A c A c := fun _ _ _ h => h

end Cache

/-! ## Specifications -/

/-- From every state with the core `c` and a cache as `A` says, the computation returns with `R` and
a cache as `A'` says, or stops at a fault with `F`. With a cache, its accesses to windows are right. -/
def Spec (b : Bool) (A : Stale) (c : View σ) (x : MmuM σ α) (A' : Stale)
    (R : α → View σ → Prop) (F : View σ → Prop) : Prop :=
  ∀ s : Mmu σ, s.toView = c → Sync b A s →
    (∀ a s', exec x s = (.ok a, s') →
      Sync b A' s' ∧ (Logged b s → Logged b s') ∧ R a s'.toView) ∧
      ∀ e s', exec x s = (.error e, s') → (Logged b s → Logged b s') ∧ F s'.toView

/-- A specification for a processor without a translation cache. -/
abbrev Uncached (c : View σ) (x : MmuM σ α) (R : α → View σ → Prop) (F : View σ → Prop) : Prop :=
  Spec false (fun _ => ∅) c x (fun _ => ∅) R F

section Exec

variable {s s' : Mmu σ} {x : MmuM σ α} {f : α → MmuM σ β}

theorem exec_bind_ok {a : α} (h : exec x s = (.ok a, s')) :
    exec (x >>= f) s = exec (f a) s' := by
  change (x.run.run s >>= fun p => ExceptT.bindCont f p.1 p.2 : Id _) = _
  change x.run.run s = _ at h
  rw [h]
  rfl

theorem exec_bind_error {e : PageFault} (h : exec x s = (.error e, s')) :
    exec (x >>= f) s = (.error e, s') := by
  change (x.run.run s >>= fun p => ExceptT.bindCont f p.1 p.2 : Id _) = _
  change x.run.run s = _ at h
  rw [h]
  rfl

theorem exec_translate (v : ℕ) : exec (translate v) s =
    (s.tick.reach (v / 4096)).elim (.error .pageFault, s.tick) fun t =>
      (.ok (t.frame + v % 4096), s.tick.note (v / 4096) t) := by
  have h₁ : exec (modify Mmu.tick : MmuM σ PUnit) s = (.ok ⟨⟩, s.tick) := rfl
  have h₂ : exec (get : MmuM σ (Mmu σ)) s.tick = (.ok s.tick, s.tick) := rfl
  unfold translate
  rw [exec_bind_ok h₁, exec_bind_ok h₂]
  cases s.tick.reach (v / 4096) <;> rfl

theorem exec_translate_some {v : ℕ} {t : Translation} (h : s.tick.reach (v / 4096) = some t) :
    exec (translate v) s = (.ok (t.frame + v % 4096), s.tick.note (v / 4096) t) := by
  rw [exec_translate, h]
  rfl

theorem exec_translate_none {v : ℕ} (h : s.tick.reach (v / 4096) = none) :
    exec (translate v) s = (.error .pageFault, s.tick) := by
  rw [exec_translate, h]
  rfl

theorem exec_load32 {v : ℕ} {t : Translation} (h : s.tick.reach (v / 4096) = some t) :
    exec (load32 v) s =
      (.ok (s.mem.get32 (t.frame + v % 4096)), s.tick.note (v / 4096) t) := by
  unfold load32
  rw [exec_bind_ok (exec_translate_some h)]
  rfl

theorem exec_store32 {v : ℕ} {t : Translation} (w : ℕ) (h : s.tick.reach (v / 4096) = some t) :
    exec (store32 v w) s = (.ok (), { s.tick.note (v / 4096) t with
      mem := s.mem.put32 (t.frame + v % 4096) w }) := by
  unfold store32
  rw [exec_bind_ok (exec_translate_some h)]
  rfl

/-- A loop that stops in its first round. -/
theorem exec_repeatTo_error {body : ℕ → MmuM σ Unit} {e : PageFault}
    (h : exec (body 0) s = (.error e, s')) (n : ℕ) :
    exec (repeatTo (n + 1) body) s = (.error e, s') := by
  induction n with
  | zero => exact h
  | succ n ih => exact exec_bind_error ih

/-- Without a fault the computation returns. -/
theorem Spec.returns {b : Bool} {A A' : Stale} {R : α → View σ → Prop}
    (h : Spec b A s.toView x A' R fun _ => False) (hs : Sync b A s) :
    ∃ a s', exec x s = (.ok a, s') ∧ Sync b A' s' ∧ R a s'.toView := by
  obtain ⟨hok, herr⟩ := h s rfl hs
  cases hx : exec x s with
  | mk r s' =>
    cases r with
    | error e => exact (herr e s' hx).2.elim
    | ok a =>
      obtain ⟨hs', -, hR⟩ := hok a s' hx
      exact ⟨a, s', rfl, hs', hR⟩

end Exec

section Rules

variable {b : Bool} {A A' A'' : Stale} {c c' : View σ} {R : α → View σ → Prop}
  {F : View σ → Prop}

theorem spec_of_exec {x : MmuM σ α} {a : Mmu σ → α} {g : Mmu σ → Mmu σ}
    (hx : ∀ s, exec x s = (.ok (a s), g s))
    (h : ∀ s : Mmu σ, s.toView = c → Sync b A s →
      Sync b A' (g s) ∧ (g s).log = s.log ∧ R (a s) (g s).toView) : Spec b A c x A' R F := by
  intro s hc hs
  obtain ⟨hs', hlog, hR⟩ := h s hc hs
  rw [hx]
  refine ⟨fun r s' hr => ?_, fun e s' hr => (by cases hr)⟩
  cases hr
  exact ⟨hs', fun hl hb => hlog ▸ hl hb, hR⟩

theorem spec_pure {a : α} (h : R a c) : Spec b A c (pure a) A R F :=
  spec_of_exec (fun _ => rfl) fun _ hc hs => ⟨hs, rfl, hc ▸ h⟩

theorem Spec.bind {x : MmuM σ α} {f : α → MmuM σ β} {Q : β → View σ → Prop}
    (h : Spec b A c x A' R F) (hf : ∀ a c', R a c' → Spec b A' c' (f a) A'' Q F) :
    Spec b A c (x >>= f) A'' Q F := by
  intro s hc hs
  obtain ⟨hok, herr⟩ := h s hc hs
  cases hx : exec x s with
  | mk r s₁ =>
    cases r with
    | ok a =>
      obtain ⟨hs₁, hl₁, hR⟩ := hok a s₁ hx
      obtain ⟨hok', herr'⟩ := hf a s₁.toView hR s₁ rfl hs₁
      rw [exec_bind_ok hx]
      refine ⟨fun a' s' h => ?_, fun e' s' h => ?_⟩
      · obtain ⟨hs', hl', hQ⟩ := hok' a' s' h
        exact ⟨hs', hl' ∘ hl₁, hQ⟩
      · obtain ⟨hl', hF⟩ := herr' e' s' h
        exact ⟨hl' ∘ hl₁, hF⟩
    | error e =>
      rw [exec_bind_error hx]
      refine ⟨fun a s' h => (by cases h), fun e' s' h => ?_⟩
      cases h
      exact herr e s₁ hx

/-- The consequence rule. -/
theorem Spec.mono {x : MmuM σ α} {R' : α → View σ → Prop} {F' : View σ → Prop}
    (h : Spec b A c x A' R F) (hst : ∀ a c', R a c' → Steps b A' c' A'' c' ∧ R' a c')
    (hF : ∀ c', F c' → F' c') : Spec b A c x A'' R' F' := by
  intro s hc hs
  obtain ⟨hok, herr⟩ := h s hc hs
  refine ⟨fun a s' hx => ?_, fun e s' hx => ?_⟩
  · obtain ⟨hs', hl', hR⟩ := hok a s' hx
    obtain ⟨hst', hR'⟩ := hst a _ hR
    exact ⟨hs'.steps hst' (fun _ _ h => h) rfl, hl', hR'⟩
  · obtain ⟨hl', hF'⟩ := herr e s' hx
    exact ⟨hl', hF _ hF'⟩

theorem Spec.post {x : MmuM σ α} {R' : α → View σ → Prop} (h : Spec b A c x A' R F)
    (hR : ∀ a c', R a c' → R' a c') : Spec b A c x A' R' F :=
  h.mono (fun a c' hr => ⟨Steps.refl b A' c', hR a c' hr⟩) fun _ hc => hc

section Access

variable {v : ℕ} (hv : Settled b A c (v / 4096)) (hself : b = true → SelfMapped c.mem c.cr3)
  (hF : lookup c.mem c.cr3 (v / 4096) = none → F c)

include hv hself hF

/-- An access to a settled page: the walk finds the frame, or the computation stops. With a cache the
directory has to be in its own last slot. -/
theorem spec_translate {Q : ℕ → View σ → Prop}
    (hQ : ∀ t, lookup c.mem c.cr3 (v / 4096) = some t → Q (t.frame + v % 4096) c) :
    Spec b A c (translate v) A Q F := by
  rintro s rfl hs
  have hreach : s.tick.reach (v / 4096) = lookup s.mem s.cr3 (v / 4096) := hs.tick.reach hv
  cases ht : lookup s.mem s.cr3 (v / 4096) with
  | none =>
    rw [exec_translate_none (hreach.trans ht)]
    refine ⟨fun a s' h => (by cases h), fun e s' h => ?_⟩
    cases h
    exact ⟨id, hF ht⟩
  | some t =>
    rw [exec_translate_some (hreach.trans ht)]
    refine ⟨fun a s' h => ?_, fun e s' h => (by cases h)⟩
    cases h
    refine ⟨hs.tick, fun hl hb a ha => ?_, hQ t ht⟩
    obtain rfl | ha := List.mem_cons.mp ha
    · exact fun hp => lookup_frame_of_last_block (hself hb) hp ht
    · exact hl hb a ha

/-- A load, of which `read` says what it takes from memory at a physical address. -/
theorem spec_fetch (read : Bytes → ℕ → β) {Q : β → View σ → Prop}
    (hQ : ∀ t, lookup c.mem c.cr3 (v / 4096) = some t → Q (read c.mem (t.frame + v % 4096)) c) :
    Spec b A c (do let a ← translate v; return read (← get).mem a) A Q F := by
  refine (spec_translate hv hself hF (Q := fun a c' => c' = c ∧ Q (read c.mem a) c)
    fun t ht => ⟨rfl, hQ t ht⟩).bind ?_
  rintro a c' ⟨rfl, hQ⟩
  exact spec_of_exec (a := fun s => read s.mem a) (g := id) (fun _ => rfl)
    fun s hc hs => ⟨hs, rfl, by subst hc; exact hQ⟩

theorem spec_load32 {Q : ℕ → View σ → Prop}
    (hQ : ∀ t, lookup c.mem c.cr3 (v / 4096) = some t →
      Q (c.mem.get32 (t.frame + v % 4096)) c) : Spec b A c (load32 v) A Q F :=
  spec_fetch hv hself hF Bytes.get32 hQ

theorem spec_load8 {Q : UInt8 → View σ → Prop}
    (hQ : ∀ t, lookup c.mem c.cr3 (v / 4096) = some t → Q (c.mem (t.frame + v % 4096)) c) :
    Spec b A c (load8 v) A Q F := spec_fetch hv hself hF (fun mem a => mem a) hQ

/-- A store, of which `upd` says what it does to memory at a physical address. -/
theorem spec_update (upd : Bytes → ℕ → Bytes) {Q : Unit → View σ → Prop}
    (hQ : ∀ t, lookup c.mem c.cr3 (v / 4096) = some t →
      Steps b A c A' { c with mem := upd c.mem (t.frame + v % 4096) } ∧
        Q () { c with mem := upd c.mem (t.frame + v % 4096) }) :
    Spec b A c (translate v >>= fun a => modify fun s : Mmu σ => { s with mem := upd s.mem a })
      A' Q F := by
  refine (spec_translate hv hself hF (Q := fun a c' => c' = c ∧
    Steps b A c A' { c with mem := upd c.mem a } ∧ Q () { c with mem := upd c.mem a })
    fun t ht => ⟨rfl, hQ t ht⟩).bind ?_
  rintro a c' ⟨rfl, hst, hQ⟩
  refine spec_of_exec (a := fun _ => ()) (g := fun s => { s with mem := upd s.mem a })
    (fun _ => rfl) fun s hc hs => ?_
  subst hc
  exact ⟨hs.steps hst (fun _ _ h => h) rfl, rfl, hQ⟩

theorem spec_store32 (w : ℕ) {Q : Unit → View σ → Prop}
    (hQ : ∀ t, lookup c.mem c.cr3 (v / 4096) = some t →
      Steps b A c A' { c with mem := c.mem.put32 (t.frame + v % 4096) w } ∧
        Q () { c with mem := c.mem.put32 (t.frame + v % 4096) w }) :
    Spec b A c (store32 v w) A' Q F :=
  spec_update hv hself hF (fun mem a => mem.put32 a w) hQ

theorem spec_store8 (x : UInt8) {Q : Unit → View σ → Prop}
    (hQ : ∀ t, lookup c.mem c.cr3 (v / 4096) = some t →
      Steps b A c A' { c with mem := c.mem.put8 (t.frame + v % 4096) x } ∧
        Q () { c with mem := c.mem.put8 (t.frame + v % 4096) x }) :
    Spec b A c (store8 v x) A' Q F :=
  spec_update hv hself hF (fun mem a => mem.put8 a x) hQ

end Access

/-- After `invlpg` nothing stale is left of the page. -/
theorem spec_invlpg (v : ℕ) {Q : Unit → View σ → Prop} (hQ : Q () c) :
    Spec b A c (invlpg v) (update A (v / 4096) ∅) Q F := by
  refine spec_of_exec (a := fun _ => ())
    (g := fun s => { s.tick with tlb := update s.tick.tlb (v / 4096) none })
    (fun _ => rfl) fun s hc hs => ?_
  subst hc
  refine ⟨?_, rfl, hQ⟩
  have ht := hs.tick
  cases b with
  | false =>
    refine ⟨fun p => ?_, ht.2⟩
    by_cases hp : p = v / 4096
    · simp [hp]
    · simp [hp, ht.1]
  | true =>
    intro p t hpt
    by_cases hp : p = v / 4096
    · simp [hp] at hpt
    · simp only [update_of_ne hp] at hpt ⊢
      exact ht p t hpt

theorem spec_readCr3 {Q : ℕ → View σ → Prop} (hQ : Q c.cr3 c) :
    Spec b A c readCr3 A Q F :=
  spec_of_exec (a := fun s => s.cr3) (g := id) (fun _ => rfl)
    fun s hc hs => ⟨hs, rfl, by subst hc; exact hQ⟩

/-- After a write of `cr3` only global translations are left. -/
theorem spec_writeCr3 (d : ℕ) {Q : Unit → View σ → Prop}
    (hst : b = true → ∀ p t, t.isGlobal = true → (lookup c.mem c.cr3 p = some t ∨ t ∈ A p) →
      lookup c.mem d p = some t ∨ t ∈ A' p)
    (hQ : Q () { c with cr3 := d }) : Spec b A c (writeCr3 d) A' Q F := by
  refine spec_of_exec (a := fun _ => ()) (g := fun s => { s.tick with
      cr3 := d
      tlb := fun p => (s.tick.tlb p).filter (·.isGlobal) }) (fun _ => rfl) fun s hc hs => ?_
  subst hc
  refine ⟨?_, rfl, hQ⟩
  have ht := hs.tick
  cases b with
  | false =>
    refine ⟨fun p => ?_, ht.2⟩
    simp [ht.1 p]
  | true =>
    intro p t hpt
    obtain ⟨hc, hg⟩ := Option.filter_eq_some_iff.mp hpt
    exact hst rfl p t hg (ht p t hc)

theorem spec_onRest (f : σ → α × σ) (hR : R (f c.rest).1 { c with rest := (f c.rest).2 }) :
    Spec b A c (onRest f) A R F := by
  refine spec_of_exec (a := fun s => (f s.rest).1) (g := fun s => { s with rest := (f s.rest).2 })
    (fun _ => rfl) fun s hc hs => ?_
  subst hc
  exact ⟨hs, rfl, hR⟩

end Rules

/-! ## Loops -/

/-- The invariant rule: `I k` holds before round `k`. -/
theorem spec_repeatTo {b : Bool} {A : Stale} {c : View σ} {F : View σ → Prop}
    (I : ℕ → View σ → Prop) {n : ℕ} {body : ℕ → MmuM σ Unit} (h₀ : I 0 c)
    (hstep : ∀ k < n, ∀ c', I k c' → Spec b A c' (body k) A (fun _ => I (k + 1)) F) :
    Spec b A c (repeatTo n body) A (fun _ => I n) F := by
  induction n with
  | zero => exact spec_pure h₀
  | succ n ih =>
    exact (ih fun k hk => hstep k (by omega)).bind fun _ c' hc => hstep n (by omega) c' hc

/-! ## The log -/

/-- No access that has been logged is forgotten; the hardware stays what it is. -/
def Grows (x : MmuM σ α) : Prop := ∀ s, s.log <:+ (exec x s).2.log ∧ (exec x s).2.hw = s.hw

section Grows

variable {x : MmuM σ α} {f : α → MmuM σ β} {s : Mmu σ}

theorem grows_of_log (h : ∀ s, (exec x s).2.log = s.log) (hhw : ∀ s, (exec x s).2.hw = s.hw) :
    Grows x := fun s => ⟨by rw [h s], hhw s⟩

theorem Grows.bind (hx : Grows x) (hf : ∀ a, Grows (f a)) : Grows (x >>= f) := by
  intro s
  obtain ⟨hlog, hhw⟩ := hx s
  cases hxs : exec x s with
  | mk r s₁ =>
    rw [hxs] at hlog hhw
    cases r with
    | ok a =>
      rw [exec_bind_ok hxs]
      exact ⟨hlog.trans (hf a s₁).1, (hf a s₁).2.trans hhw⟩
    | error e =>
      rw [exec_bind_error hxs]
      exact ⟨hlog, hhw⟩

theorem mem_log_bind (hf : ∀ a, Grows (f a)) {a : Access} (h : a ∈ (exec x s).2.log) :
    a ∈ (exec (x >>= f) s).2.log := by
  cases hxs : exec x s with
  | mk r s₁ =>
    rw [hxs] at h
    cases r with
    | ok r =>
      rw [exec_bind_ok hxs]
      exact (hf r s₁).1.mem h
    | error e =>
      rw [exec_bind_error hxs]
      exact h

theorem mem_log_translate {v : ℕ} {t : Translation} (h : s.tick.reach (v / 4096) = some t) :
    ⟨v / 4096, t.frame, s.cr3, entry s.mem s.cr3 (v / 4096 % 1024)⟩ ∈
      (exec (translate v) s).2.log := by
  rw [exec_translate_some h]
  exact List.mem_cons_self

theorem grows_pure (a : α) : Grows (pure a : MmuM σ α) := grows_of_log (fun _ => rfl) fun _ => rfl

theorem grows_translate (v : ℕ) : Grows (translate v : MmuM σ ℕ) := by
  intro s
  cases hr : s.tick.reach (v / 4096) with
  | none =>
    rw [exec_translate_none hr]
    exact ⟨List.suffix_refl _, rfl⟩
  | some t =>
    rw [exec_translate_some hr]
    exact ⟨List.suffix_cons _ _, rfl⟩

theorem grows_load32 (v : ℕ) : Grows (load32 v : MmuM σ ℕ) :=
  (grows_translate v).bind fun _ => grows_of_log (fun _ => rfl) fun _ => rfl

theorem grows_modify_mem (f : Bytes → Bytes) :
    Grows (modify fun s : Mmu σ => { s with mem := f s.mem } : MmuM σ PUnit) :=
  grows_of_log (fun _ => rfl) fun _ => rfl

theorem grows_store32 (v w : ℕ) : Grows (store32 v w : MmuM σ Unit) :=
  (grows_translate v).bind fun a => grows_modify_mem (·.put32 a w)

theorem grows_invlpg (v : ℕ) : Grows (invlpg v : MmuM σ Unit) :=
  grows_of_log (fun _ => rfl) fun _ => rfl

theorem grows_onRest (g : σ → α × σ) : Grows (onRest g) :=
  grows_of_log (fun _ => rfl) fun _ => rfl

theorem grows_repeatTo {n : ℕ} {body : ℕ → MmuM σ Unit} (h : ∀ k, Grows (body k)) :
    Grows (repeatTo n body) := by
  induction n with
  | zero => exact grows_pure ()
  | succ n ih => exact ih.bind fun _ => h n

theorem mem_log_store32 {v w : ℕ} {t : Translation} (h : s.tick.reach (v / 4096) = some t) :
    ⟨v / 4096, t.frame, s.cr3, entry s.mem s.cr3 (v / 4096 % 1024)⟩ ∈
      (exec (store32 v w) s).2.log :=
  mem_log_bind (fun a => grows_modify_mem (·.put32 a w)) (mem_log_translate h)

end Grows

/-! ## Windows on the tables -/

/-- The virtual address of entry `i` of the table in slot `k`. -/
def windowWord (k i : ℕ) : ℕ := 0xFFC00000 + 4096 * k + 4 * i

/-- The page on which the window shows slot `k`. -/
def windowPage (k : ℕ) : ℕ := 1023 * 1024 + k

theorem right_last_iff {a : Access} (h : a.page = windowPage 1023) : a.Right ↔ a.frame = a.dir := by
  simp [Access.Right, h, windowPage]

section Windows

variable {b : Bool} {A A' : Stale} {c : View σ} {F : View σ → Prop} {k i : ℕ}

theorem windowWord_page (hi : i < 1024) : windowWord k i / 4096 = windowPage k := by
  unfold windowWord windowPage
  omega

theorem windowWord_offset (hi : i < 1024) : windowWord k i % 4096 = 4 * i := by
  unfold windowWord
  omega

theorem lookup_windowPage_none (hself : SelfMapped c.mem c.cr3) (hk : k < 1024)
    (hp : ¬IsPresent (entry c.mem c.cr3 k)) : lookup c.mem c.cr3 (windowPage k) = none := by
  have h₁ : (1023 * 1024 + k) / 1024 = 1023 := by omega
  have h₂ : (1023 * 1024 + k) % 1024 = k := by omega
  simp [windowPage, lookup, h₁, h₂, hself.2, hp]

variable (hself : SelfMapped c.mem c.cr3) (hk : k < 1024) (hi : i < 1024)
  (hp : IsPresent (entry c.mem c.cr3 k)) (hset : Settled b A c (windowPage k))

include hself hk hi hp hset

theorem spec_load_window :
    Spec b A c (load32 (windowWord k i)) A
      (fun w c' => c' = c ∧ w = entry c.mem (frameOf (entry c.mem c.cr3 k)) i) F := by
  have hl := lookup_last_block hself hk hp
  rw [← windowPage, ← windowWord_page hi] at hl
  refine spec_load32 (windowWord_page hi ▸ hset) (fun _ => hself) (fun h => ?_) fun t ht => ?_
  · rw [hl] at h
    cases h
  · rw [hl] at ht
    cases ht
    rw [windowWord_offset hi]
    exact ⟨rfl, rfl⟩

theorem spec_store_window (w : ℕ)
    (hst : Steps b A c A' { c with
      mem := c.mem.put32 (frameOf (entry c.mem c.cr3 k) + 4 * i) w }) :
    Spec b A c (store32 (windowWord k i) w) A'
      (fun _ c' => c' = { c with
        mem := c.mem.put32 (frameOf (entry c.mem c.cr3 k) + 4 * i) w }) F := by
  have hl := lookup_last_block hself hk hp
  rw [← windowPage, ← windowWord_page hi] at hl
  refine spec_store32 (windowWord_page hi ▸ hset) (fun _ => hself) (fun h => ?_) w fun t ht => ?_
  · rw [hl] at h
    cases h
  · rw [hl] at ht
    cases ht
    rw [windowWord_offset hi]
    exact ⟨hst, rfl⟩

end Windows

end DvivonOS.Paging
