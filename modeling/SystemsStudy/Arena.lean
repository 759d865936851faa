/-
SystemsStudy/Arena.lean

The driver's bump allocator.

Buffers are taken from an arena that begins after the rings; the pointer only
moves up, so the next buffer begins where the earlier ones have ended.
`allocUninit` is given the length as a `u32`, and `alloc` casts the length of
its data to one: for a slice of `2 ^ 32` bytes or more it reserves the low 32
bits of the length and still writes all of the data.

`Fits` is what a call needs so that nothing is lost: a short slice, or one that
is refused.  A sequence of calls whose grants are `Sound`, also after any
further `allocUninit`, is exactly one in which every call fits
(`allocations_sound_iff`).
-/
import SystemsStudy.Ownership

namespace SystemsStudy

open Bytes Fallible

/-- A call of the allocator. -/
inductive Request where
  | alloc (data : List UInt8)
  | allocUninit (len : UInt32)

namespace Request

/-- The length of the buffer the caller asked for. -/
def len : Request → ℕ
  | alloc data => data.length
  | allocUninit len => len.toNat

/-- The method of the driver that a request calls. -/
def call : Request → DriverM MemError (Option ℕ)
  | alloc data => Driver.alloc data
  | allocUninit len => Driver.allocUninit len

/-- The slice is short enough for the cast of its length, or the call is
refused: the arena has no room for the length cast, or the region none for the
data. -/
def Fits : Request → Driver → SharedMem → Prop
  | alloc data, d, m => data.length < 2 ^ 32 ∨
      d.arenaEnd < d.arena + data.length % 2 ^ 32 ∨ m.len < d.arena + data.length
  | allocUninit _, _, _ => True

end Request

/-- A buffer the allocator handed out: its address and what it was asked for. -/
abbrev Grant := ℕ × Request

namespace Grant

/-- The first address after the buffer. -/
def stop (g : Grant) : ℕ := g.1 + g.2.len

/-- No byte belongs to both. -/
def Apart (g g' : Grant) : Prop := g.stop ≤ g'.1 ∨ g'.stop ≤ g.1

end Grant

/-- What the callers of the allocator rely on, after some calls: the buffers
are apart, lie between the rings and the end of the arena, and those that were
filled still hold their data. -/
structure Sound (l : VirtqLayout) (arenaEnd : ℕ) (grants : List Grant) (m : SharedMem) : Prop where
  apart : grants.Pairwise Grant.Apart
  inside : ∀ g ∈ grants, l.endAddr ≤ g.1 ∧ g.stop ≤ arenaEnd
  kept : ∀ g ∈ grants, ∀ data, g.2 = .alloc data → m.bytes g.1 data.length = data

theorem Sound.of_cons {l : VirtqLayout} {arenaEnd : ℕ} {g : Grant} {grants : List Grant}
    {m : SharedMem} (h : Sound l arenaEnd (g :: grants) m) : Sound l arenaEnd grants m where
  apart := (List.pairwise_cons.mp h.apart).2
  inside g' hg' := h.inside g' (List.mem_cons_of_mem _ hg')
  kept g' hg' := h.kept g' (List.mem_cons_of_mem _ hg')

namespace Driver

open Half

variable {d : Driver} {m : SharedMem} {l : VirtqLayout} {arenaEnd : ℕ}

/-- Make the calls, in order; returns the buffers handed out. -/
def allocAll : List Request → DriverM MemError (List Grant)
  | [] => return []
  | r :: rs => do
      let a ← r.call
      let grants ← allocAll rs
      return a.toList.map (·, r) ++ grants

/-- Every call of the sequence fits. -/
def FitsAll : List Request → Driver × SharedMem → Prop
  | [], _ => True
  | r :: rs, s => r.Fits s.1 s.2 ∧ FitsAll rs (final (r.call s))

/-- The calls return, and what they hand out is sound. -/
def AllocatesSoundly (l : VirtqLayout) (arenaEnd : ℕ) (rs : List Request)
    (s : Driver × SharedMem) : Prop :=
  ∃ grants s', allocAll rs s = .ok grants s' ∧ Sound l arenaEnd grants s'.2

/-! ### One call -/

/-- The driver after reserving `n` bytes. -/
def reserved (d : Driver) (n : ℕ) : Driver := { d with arena := alignUp (d.arena + n) 8 }

theorem le_arena_reserved (n : ℕ) : d.arena + n ≤ (d.reserved n).arena := le_alignUp (by decide)

theorem arena_reserved_lt (n : ℕ) : (d.reserved n).arena < d.arena + n + 8 := by
  show (d.arena + n + 8 - 1) / 8 * 8 < _
  omega

/-- The arena of a driver that makes these calls: between the end of the rings
and the end of the region. -/
structure Within (l : VirtqLayout) (arenaEnd : ℕ) (s : Driver × SharedMem) : Prop where
  le_arena : l.endAddr ≤ s.1.arena
  arenaEnd_eq : s.1.arenaEnd = arenaEnd
  arenaEnd_le : arenaEnd ≤ s.2.len

theorem Within.reserved (h : Within l arenaEnd (d, m)) (n : ℕ) {m' : SharedMem}
    (hlen : m'.len = m.len) : Within l arenaEnd (d.reserved n, m') where
  le_arena := h.le_arena.trans ((Nat.le_add_right _ n).trans (le_arena_reserved n))
  arenaEnd_eq := h.arenaEnd_eq
  arenaEnd_le := by
    rw [hlen]
    exact h.arenaEnd_le

theorem allocUninit_eq (h : Within l arenaEnd (d, m)) (len : UInt32) :
    allocUninit len (d, m) =
      if d.arena + len.toNat ≤ arenaEnd then .ok (some d.arena) (d.reserved len.toNat, m)
      else .ok none (d, m) := by
  have hend : d.arenaEnd = arenaEnd := h.arenaEnd_eq
  have hle : arenaEnd ≤ m.len := h.arenaEnd_le
  have hlen : m.len < 2 ^ 63 := m.len_lt
  unfold allocUninit GuestAddr.checkedAdd
  rw [bind_ok (self_run _)]
  dsimp only
  by_cases hin : d.arena + len.toNat ≤ arenaEnd
  · -- there is room: the arena moves on to the next multiple of eight
    have hup : alignUp (d.arena + len.toNat) 8 < 2 ^ 64 := by
      have hlt := arena_reserved_lt (d := d) len.toNat
      have heq : (d.reserved len.toNat).arena = alignUp (d.arena + len.toNat) 8 := rfl
      omega
    rw [if_pos hin, if_pos (by omega)]
    dsimp only
    rw [if_neg (by omega), nextMultipleOf, if_pos hup]
    rfl
  · rw [if_neg hin]
    -- no room, or no sum at all: refused either way
    by_cases h64 : d.arena + len.toNat < 2 ^ 64
    · rw [if_pos h64]
      dsimp only
      rw [if_pos (by omega)]
      rfl
    · rw [if_neg h64]
      rfl

/-- `alloc` reserves the low 32 bits of the length and writes all of the data. -/
theorem alloc_eq (h : Within l arenaEnd (d, m)) (data : List UInt8) :
    alloc data (d, m) =
      if d.arena + data.length % 2 ^ 32 ≤ arenaEnd then
        if d.arena + data.length ≤ m.len then
          .ok (some d.arena) (d.reserved (data.length % 2 ^ 32), m.put d.arena data)
        else .ok none (d.reserved (data.length % 2 ^ 32), m)
      else .ok none (d, m) := by
  have hcast : (UInt32.ofNat data.length).toNat = data.length % 2 ^ 32 := UInt32.toNat_ofNat'
  have hreserve := allocUninit_eq h (UInt32.ofNat data.length)
  rw [hcast] at hreserve
  unfold alloc
  -- the reservation is made for the cast of the length, the store for the length itself
  by_cases hin : d.arena + data.length % 2 ^ 32 ≤ arenaEnd
  · rw [if_pos hin] at hreserve ⊢
    rw [bind_ok hreserve]
    dsimp only
    rw [m.writeSlice_eq]
    by_cases hfit : d.arena + data.length ≤ m.len
    · rw [if_pos hfit, if_pos hfit]
    · rw [if_neg hfit, if_neg hfit]
  · rw [if_neg hin] at hreserve ⊢
    rw [bind_ok hreserve]
    rfl

/-- What a call that returned `a` did: the pointer moved up, nothing below it
changed, and what was handed out lies in what it passed. -/
structure Called (arenaEnd : ℕ) (r : Request) (s : Driver × SharedMem) (a : Option ℕ)
    (s' : Driver × SharedMem) : Prop where
  arena_le : s.1.arena ≤ s'.1.arena
  below : SharedMem.SameOn s'.2 s.2 0 s.1.arena
  granted : ∀ addr, a = some addr → addr = s.1.arena ∧ addr + r.len ≤ s'.1.arena ∧
    addr + r.len ≤ arenaEnd ∧
    ∀ data, r = .alloc data → s'.2.bytes addr data.length = data

/-- The step lemma. -/
theorem call_spec (h : Within l arenaEnd (d, m)) {r : Request} (hfit : r.Fits d m) :
    ∃ a s', r.call (d, m) = .ok a s' ∧ Within l arenaEnd s' ∧
      Called arenaEnd r (d, m) a s' := by
  have hend : d.arenaEnd = arenaEnd := h.arenaEnd_eq
  have hle : arenaEnd ≤ m.len := h.arenaEnd_le
  cases r with
  | allocUninit len =>
      have hcall := allocUninit_eq h len
      have harena := le_arena_reserved (d := d) len.toNat
      by_cases hin : d.arena + len.toNat ≤ arenaEnd
      · rw [if_pos hin] at hcall
        refine ⟨_, _, hcall, h.reserved _ rfl, ?_, fun _ _ _ => rfl, ?_⟩
        · exact (Nat.le_add_right _ _).trans harena
        · rintro _ ⟨⟩
          exact ⟨rfl, harena, hin, fun _ hr => nomatch hr⟩
      · rw [if_neg hin] at hcall
        exact ⟨_, _, hcall, h, le_rfl, fun _ _ _ => rfl, fun _ hno => nomatch hno⟩
  | alloc data =>
      have hcall := alloc_eq h data
      have harena := le_arena_reserved (d := d) (data.length % 2 ^ 32)
      by_cases hin : d.arena + data.length % 2 ^ 32 ≤ arenaEnd
      · rw [if_pos hin] at hcall
        by_cases hfits : d.arena + data.length ≤ m.len
        · -- nothing was refused, so the slice is short and was reserved in full
          have hmod : data.length % 2 ^ 32 = data.length := by
            rcases hfit with hlt | hout | hout
            · exact Nat.mod_eq_of_lt hlt
            · omega
            · omega
          rw [if_pos hfits] at hcall
          refine ⟨_, _, hcall, h.reserved _ (SharedMem.len_put _ _ _), ?_, ?_, ?_⟩
          · exact (Nat.le_add_right _ _).trans harena
          · exact m.sameOn_put (.inl le_rfl)
          · rintro _ ⟨⟩
            refine ⟨rfl, ?_, ?_, ?_⟩
            · rw [hmod] at harena ⊢
              exact harena
            · rw [hmod] at hin
              exact hin
            · rintro _ hr
              cases hr
              exact m.bytes_put_self hfits
        · rw [if_neg hfits] at hcall
          refine ⟨_, _, hcall, h.reserved _ rfl, ?_, fun _ _ _ => rfl, fun _ hno => nomatch hno⟩
          exact (Nat.le_add_right _ _).trans harena
      · rw [if_neg hin] at hcall
        exact ⟨_, _, hcall, h, le_rfl, fun _ _ _ => rfl, fun _ hno => nomatch hno⟩

/-- A call that does not fit hands out more than it reserves. -/
theorem call_of_not_fits (h : Within l arenaEnd (d, m)) {r : Request} (hno : ¬ r.Fits d m) :
    ∃ data, r = .alloc data ∧ 2 ^ 32 ≤ data.length ∧
      r.call (d, m) =
        .ok (some d.arena) (d.reserved (data.length % 2 ^ 32), m.put d.arena data) := by
  have hend : d.arenaEnd = arenaEnd := h.arenaEnd_eq
  cases r with
  | allocUninit len => exact absurd trivial hno
  | alloc data =>
      simp only [Request.Fits, not_or, Nat.not_lt] at hno
      obtain ⟨hlong, hin, hfits⟩ := hno
      have hcall := alloc_eq h data
      rw [if_pos (by omega), if_pos hfits] at hcall
      exact ⟨data, rfl, hlong, hcall⟩

/-! ### Sequences of calls -/

theorem allocAll_cons {r : Request} {rs : List Request} {s s₁ : Driver × SharedMem}
    {a : Option ℕ} (h : r.call s = .ok a s₁) :
    allocAll (r :: rs) s = (do
      let grants ← allocAll rs
      return a.toList.map (·, r) ++ grants : DriverM MemError (List Grant)) s₁ := by
  rw [allocAll, bind_ok h]

/-- The run lemma. -/
theorem allocAll_spec {rs : List Request} {s : Driver × SharedMem} (hs : Within l arenaEnd s)
    (hfit : FitsAll rs s) :
    ∃ grants s', allocAll rs s = .ok grants s' ∧ Sound l arenaEnd grants s'.2 ∧
      (∀ g ∈ grants, s.1.arena ≤ g.1) ∧ SharedMem.SameOn s'.2 s.2 0 s.1.arena := by
  induction rs generalizing s with
  | nil =>
      refine ⟨[], s, rfl, ⟨.nil, ?_, ?_⟩, ?_, fun _ _ _ => rfl⟩
      · exact fun g hg => nomatch hg
      · exact fun g hg => nomatch hg
      · exact fun g hg => nomatch hg
  | cons r rs ih =>
      obtain ⟨a, s₁, hcall, hs₁, hcalled⟩ := call_spec hs hfit.1
      have hrest : FitsAll rs s₁ := by
        have h₂ := hfit.2
        rwa [show final (r.call s) = s₁ by rw [hcall]; rfl] at h₂
      obtain ⟨grants, s', hall, hsound, hlow, hbelow⟩ := ih hs₁ hrest
      have hsame : SharedMem.SameOn s'.2 s.2 0 s.1.arena :=
        (hbelow.mono le_rfl hcalled.arena_le).trans hcalled.below
      refine ⟨_, s', by rw [allocAll_cons hcall, bind_ok hall]; rfl, ?_, ?_, hsame⟩
      · rcases a with - | addr
        · exact hsound
        -- the new buffer ends where the pointer stands, and the others begin there
        obtain ⟨rfl, hstop, hin, hfilled⟩ := hcalled.granted _ rfl
        refine ⟨List.pairwise_cons.mpr ⟨fun g hg => .inl (hstop.trans (hlow g hg)), hsound.apart⟩,
          ?_, ?_⟩
        · rintro g hg
          rcases List.mem_cons.mp hg with rfl | hg
          · exact ⟨hs.le_arena, hin⟩
          · exact hsound.inside g hg
        · rintro g hg data hr
          rcases List.mem_cons.mp hg with rfl | hg
          · obtain rfl : r = .alloc data := hr
            have hkeep : SharedMem.SameOn s'.2 s₁.2 s.1.arena (s.1.arena + data.length) :=
              hbelow.mono (Nat.zero_le _) hstop
            exact hkeep.bytes_eq.trans (hfilled data rfl)
          · exact hsound.kept g hg data hr
      · rintro g hg
        rcases List.mem_append.mp hg with hg | hg
        · obtain ⟨addr, haddr, rfl⟩ := List.mem_map.mp hg
          exact (hcalled.granted addr (Option.mem_toList.mp haddr)).1.ge
        · exact hcalled.arena_le.trans (hlow g hg)

/-- The rest of a sound sequence is sound. -/
theorem AllocatesSoundly.of_cons {r : Request} {rs : List Request} {s s₁ : Driver × SharedMem}
    {a : Option ℕ} (h : AllocatesSoundly l arenaEnd (r :: rs) s) (hcall : r.call s = .ok a s₁) :
    AllocatesSoundly l arenaEnd rs s₁ := by
  obtain ⟨grants, s', hall, hsound⟩ := h
  rw [allocAll_cons hcall] at hall
  obtain ⟨grants', s₂, hrest, heq⟩ := bind_eq_ok.mp hall
  cases heq
  refine ⟨grants', _, hrest, ?_⟩
  rcases a with - | addr
  · exact hsound
  · exact hsound.of_cons

/-- A call that does not fit leaves the arena, or else the next buffer begins
inside the one it handed out. -/
theorem fits_of_sound {r : Request} {s : Driver × SharedMem} (hs : Within l arenaEnd s)
    (h : ∀ lens : List UInt32,
      AllocatesSoundly l arenaEnd (r :: lens.map .allocUninit) s) : r.Fits s.1 s.2 := by
  by_contra hno
  obtain ⟨d, m⟩ := s
  obtain ⟨data, rfl, hlong, hcall⟩ := call_of_not_fits hs hno
  set d₁ := d.reserved (data.length % 2 ^ 32) with hd₁
  have hs₁ : Within l arenaEnd (d₁, m.put d.arena data) :=
    hs.reserved _ (SharedMem.len_put _ _ _)
  -- a long slice reserves less than it writes
  have hnear : d₁.arena + 1 ≤ d.arena + data.length := by
    have hlt := arena_reserved_lt (d := d) (data.length % 2 ^ 32)
    rw [← hd₁] at hlt
    omega
  obtain ⟨grants, s', hall, hsound⟩ := h []
  rw [List.map_nil, allocAll_cons hcall] at hall
  cases hall
  have hin : d.arena + data.length ≤ arenaEnd := (hsound.inside _ List.mem_cons_self).2
  -- so the next byte that is granted lies inside it
  have hnext : (Request.allocUninit 1).call (d₁, m.put d.arena data) =
      .ok (some d₁.arena) (d₁.reserved 1, m.put d.arena data) := by
    have heq := allocUninit_eq hs₁ 1
    rwa [if_pos (show d₁.arena + (1 : UInt32).toNat ≤ arenaEnd from hnear.trans hin)] at heq
  obtain ⟨grants, s', hall, hsound⟩ := h [1]
  rw [List.map_cons, List.map_nil, allocAll_cons hcall, bind_ok (by
    rw [allocAll_cons hnext]
    rfl)] at hall
  cases hall
  have hle : d.arena ≤ d₁.arena := (Nat.le_add_right _ _).trans (le_arena_reserved _)
  have hapart : Grant.Apart (d.arena, .alloc data) (d₁.arena, .allocUninit 1) :=
    (List.pairwise_cons.mp hsound.apart).1 _ List.mem_cons_self
  rcases hapart with h₁ | h₁
  · have h₂ : d.arena + data.length ≤ d₁.arena := h₁
    omega
  · have h₂ : d₁.arena + 1 ≤ d.arena := h₁
    omega

theorem fitsAll_of_sound {rs : List Request} {s : Driver × SharedMem} (hs : Within l arenaEnd s)
    (h : ∀ pre, pre <+: rs → ∀ lens : List UInt32,
      AllocatesSoundly l arenaEnd (pre ++ lens.map .allocUninit) s) : FitsAll rs s := by
  induction rs generalizing s with
  | nil => trivial
  | cons r rs ih =>
      have hr : r.Fits s.1 s.2 :=
        fits_of_sound hs fun lens => h [r] (List.prefix_append [r] rs) lens
      obtain ⟨a, s₁, hcall, hs₁, -⟩ := call_spec hs hr
      refine ⟨hr, ?_⟩
      rw [hcall, final_ok]
      exact ih hs₁ fun pre hpre lens =>
        (h (r :: pre) (List.cons_prefix_cons.mpr ⟨rfl, hpre⟩) lens).of_cons hcall

theorem fitsAll_append {rs rs' : List Request} {s : Driver × SharedMem} (h : FitsAll rs s)
    (h' : ∀ s, FitsAll rs' s) : FitsAll (rs ++ rs') s := by
  induction rs generalizing s with
  | nil => exact h' s
  | cons r rs ih => exact ⟨h.1, ih h.2⟩

theorem fitsAll_initial {rs pre : List Request} {s : Driver × SharedMem} (h : FitsAll rs s)
    (hpre : pre <+: rs) : FitsAll pre s := by
  induction pre generalizing rs s with
  | nil => trivial
  | cons r pre ih =>
      obtain ⟨rest, rfl⟩ := hpre
      exact ⟨h.1, ih h.2 (List.prefix_append pre rest)⟩

theorem fitsAll_allocUninit (lens : List UInt32) (s : Driver × SharedMem) :
    FitsAll (lens.map .allocUninit) s := by
  induction lens generalizing s with
  | nil => trivial
  | cons len lens ih => exact ⟨trivial, ih _⟩

theorem within_of_new {eventIdx : Bool} (hnew : Driver.new l arenaEnd eventIdx = some d)
    (harena : arenaEnd ≤ m.len) : Within l arenaEnd (d, m) := by
  unfold Driver.new at hnew
  split at hnew
  · obtain ⟨arena, hup, rfl⟩ := Option.map_eq_some_iff.mp hnew
    unfold nextMultipleOf at hup
    split at hup
    · cases hup
      exact ⟨le_alignUp (by decide), rfl, harena⟩
    · cases hup
  · cases hnew

/-- For every layout, arena, region that holds the arena, and sequence of
calls: at each point of the sequence, and however many buffers are then taken
with `allocUninit`, the buffers are apart, lie between the rings and the end of
the arena, and keep their data, exactly if every call of the sequence fits. -/
theorem allocations_sound_iff {eventIdx : Bool} {d₀ : Driver}
    (hnew : Driver.new l arenaEnd eventIdx = some d₀) (harena : arenaEnd ≤ m.len)
    (rs : List Request) :
    (∀ pre, pre <+: rs → ∀ lens : List UInt32,
      AllocatesSoundly l arenaEnd (pre ++ lens.map .allocUninit) (d₀, m)) ↔
    FitsAll rs (d₀, m) := by
  have hs := within_of_new hnew harena
  constructor
  · exact fitsAll_of_sound hs
  · intro hfit pre hpre lens
    have hall := fitsAll_append (fitsAll_initial hfit hpre) (fitsAll_allocUninit lens)
    obtain ⟨grants, s', hrun, hsound, -, -⟩ := allocAll_spec hs hall
    exact ⟨grants, s', hrun, hsound⟩

theorem allocations_sound_iff_unitDriver :
    (∀ pre, pre <+: [.alloc [7, 8], .allocUninit 3] → ∀ lens : List UInt32,
      AllocatesSoundly unitQueue 100 (pre ++ lens.map .allocUninit) (unitDriver, emptyRegion)) ↔
    FitsAll [.alloc [7, 8], .allocUninit 3] (unitDriver, emptyRegion) :=
  allocations_sound_iff new_unitQueue (by decide) _

/-- A slice whose length has no low bits is handed out and nothing reserved. -/
theorem alloc_then_allocUninit (h : Within l arenaEnd (d, m)) {data : List UInt8}
    (hlow : data.length % 2 ^ 32 = 0) (haligned : d.arena % 8 = 0)
    (hin : d.arena + data.length ≤ arenaEnd) (hroom : d.arena + 1 ≤ arenaEnd) :
    ∃ s', allocAll [.alloc data, .allocUninit 1] (d, m) =
      .ok [(d.arena, .alloc data), (d.arena, .allocUninit 1)] s' := by
  have hle : arenaEnd ≤ m.len := h.arenaEnd_le
  -- a length that is a multiple of 2^32 reserves nothing
  have hsame : d.reserved 0 = d := by
    have hup : alignUp (d.arena + 0) 8 = d.arena := by
      show (d.arena + 0 + 8 - 1) / 8 * 8 = _
      omega
    rw [reserved, hup]
  have hcall := alloc_eq h data
  rw [if_pos (by omega), if_pos (by omega), hlow, hsame] at hcall
  have hs₁ : Within l arenaEnd (d, m.put d.arena data) :=
    ⟨h.le_arena, h.arenaEnd_eq, by
      rw [SharedMem.len_put]
      exact hle⟩
  have hnext := allocUninit_eq hs₁ 1
  rw [if_pos (show d.arena + (1 : UInt32).toNat ≤ arenaEnd from hroom)] at hnext
  rw [allocAll_cons (r := .alloc data) hcall, bind_ok (by
    rw [allocAll_cons (r := .allocUninit 1) hnext]
    rfl)]
  exact ⟨_, rfl⟩

/-- Two buffers that begin together share their first byte. -/
theorem not_apart {addr : ℕ} {data : List UInt8} (h : 0 < data.length) :
    ¬ Grant.Apart (addr, .alloc data) (addr, .allocUninit 1) := by
  rintro (h₁ | h₁)
  · have h₂ : addr + data.length ≤ addr := h₁
    omega
  · have h₂ : addr + 1 ≤ addr := h₁
    omega

theorem eightGiB_lt : 2 ^ 33 < 2 ^ 63 := by norm_num

/-- A slice of `2 ^ 32` bytes and the buffer of one byte taken after it both
begin at address 48. -/
theorem long_alloc_overlaps :
    ∃ d₀, Driver.new unitQueue (2 ^ 33) true = some d₀ ∧
      2 ^ 33 ≤ (SharedMem.new (2 ^ 33) eightGiB_lt).len ∧
      (∃ s', allocAll [.alloc (List.replicate (2 ^ 32) 7), .allocUninit 1]
          (d₀, SharedMem.new (2 ^ 33) eightGiB_lt) =
        .ok [(48, .alloc (List.replicate (2 ^ 32) 7)), (48, .allocUninit 1)] s') ∧
      ¬ AllocatesSoundly unitQueue (2 ^ 33)
        [.alloc (List.replicate (2 ^ 32) 7), .allocUninit 1]
        (d₀, SharedMem.new (2 ^ 33) eightGiB_lt) := by
  obtain ⟨d₀, hnew, harena⟩ : ∃ d₀, Driver.new unitQueue (2 ^ 33) true = some d₀ ∧
      d₀.arena = 48 := ⟨_, rfl, rfl⟩
  have hlen : 2 ^ 33 ≤ (SharedMem.new (2 ^ 33) eightGiB_lt).len := by
    rw [SharedMem.len, SharedMem.new, List.length_replicate]
  have hdata : (List.replicate (2 ^ 32) (7 : UInt8)).length = 2 ^ 32 := List.length_replicate
  obtain ⟨s', hrun⟩ := alloc_then_allocUninit (within_of_new hnew hlen)
    (by rw [hdata, Nat.mod_self]) (by rw [harena]) (by rw [hdata, harena]; norm_num)
    (by rw [harena]; norm_num)
  rw [harena] at hrun
  refine ⟨d₀, hnew, hlen, ⟨s', hrun⟩, ?_⟩
  -- both grants begin at 48
  rintro ⟨grants, s'', hrun', hsound⟩
  cases hrun.symm.trans hrun'
  exact not_apart (by rw [hdata]; norm_num) (List.pairwise_pair.mp hsound.apart)

end Driver

end SystemsStudy
