import LoxLang.Proofs.Scope.ForStatement
import LoxLang.Proofs.Store.Heap

/-!
Frames that are bypassed. Of two heaps, the second does without some frames of the first that bind
nothing: what hangs on such a frame in the first heap hangs in the second on what the frame itself hangs
on. All other frames, with their bindings, and all objects are in both heaps. Code that is run inside of
a bypassed frame passes it in the first heap only, and its table says so.
-/

namespace LoxLang

open Scope

structure Bypass where
  left : Heap
  right : Heap
  /-- Where a frame is in the second heap; for one that is bypassed, where the frame around it is. -/
  image : Address → Address
  bypassed : Address → Prop

namespace Bypass

/-- A later pair of heaps. -/
structure Le (W W' : Bypass) : Prop where
  frames : W.left.frames.size ≤ W'.left.frames.size
  functions : W.left.functions.size ≤ W'.left.functions.size
  enclosing : ∀ a < W.left.frames.size, (W'.left.frame a).enclosing = (W.left.frame a).enclosing
  image : ∀ a < W.left.frames.size, W'.image a = W.image a
  bypassed : ∀ a < W.left.frames.size, (W'.bypassed a ↔ W.bypassed a)
  function : ∀ f < W.left.functions.size,
    W'.left.function f = W.left.function f ∧ W'.right.function f = W.right.function f

variable {W W' W'' : Bypass} {a b : Address} {skip : Option Nat} {n : Nat}

theorem Le.refl (W : Bypass) : W.Le W where
  frames := Nat.le_refl _
  functions := Nat.le_refl _
  enclosing _ _ := rfl
  image _ _ := rfl
  bypassed _ _ := Iff.rfl
  function _ _ := ⟨rfl, rfl⟩

theorem Le.trans (h : W.Le W') (h' : W'.Le W'') : W.Le W'' where
  frames := Nat.le_trans h.frames h'.frames
  functions := Nat.le_trans h.functions h'.functions
  enclosing a ha := (h'.enclosing a (Nat.lt_of_lt_of_le ha h.frames)).trans (h.enclosing a ha)
  image a ha := (h'.image a (Nat.lt_of_lt_of_le ha h.frames)).trans (h.image a ha)
  bypassed a ha := (h'.bypassed a (Nat.lt_of_lt_of_le ha h.frames)).trans (h.bypassed a ha)
  function f hf := by
    obtain ⟨hleft, hright⟩ := h.function f hf
    obtain ⟨hleft', hright'⟩ := h'.function f (Nat.lt_of_lt_of_le hf h.functions)
    exact ⟨hleft'.trans hleft, hright'.trans hright⟩

/-! ### Frames -/

/-- The frames of the two heaps. -/
structure GoodFrames (W : Bypass) : Prop where
  linked : W.left.Linked
  linked' : W.right.Linked
  globals : Heap.globals < W.left.frames.size
  image_globals : W.image Heap.globals = Heap.globals
  images : ∀ a < W.left.frames.size, W.image a < W.right.frames.size
  kept : ∀ a < W.left.frames.size, ¬W.bypassed a →
    (W.right.frame (W.image a)).bindings = (W.left.frame a).bindings ∧
      (W.right.frame (W.image a)).enclosing = (W.left.frame a).enclosing.map W.image
  passed : ∀ a < W.left.frames.size, W.bypassed a → (W.left.frame a).bindings = [] ∧
    ∃ b, (W.left.frame a).enclosing = some b ∧ W.image a = W.image b
  distinct : ∀ a < W.left.frames.size, ∀ b < W.left.frames.size, ¬W.bypassed a → ¬W.bypassed b →
    W.image a = W.image b → a = b

/-- Where code runs at a depth. The one bypassed frame around it, if there is one, is that of the scope
to pass. -/
structure Stands (W : Bypass) (a : Address) (skip : Option Nat) (n : Nat) : Prop where
  size : a < W.left.frames.size
  around : ∀ w ∈ skip, w ≤ n
  passes : ∀ i f, (W.left.chain a)[i]? = some f → (W.bypassed f ↔ ∃ w ∈ skip, i + w = n)

variable {W W' : Bypass} {a b : Address} {skip : Option Nat} {n : Nat}

theorem Le.chain (hle : W.Le W') (hgood : W.GoodFrames) (hgood' : W'.GoodFrames)
    (ha : a < W.left.frames.size) : W'.left.chain a = W.left.chain a := by
  induction a using Nat.strongRecOn with
  | ind a ih =>
      rw [Heap.chain_eq hgood.linked, Heap.chain_eq hgood'.linked, hle.enclosing a ha]
      cases hlink : (W.left.frame a).enclosing with
      | none => rfl
      | some b =>
          have hlt := hgood.linked a b hlink
          simp only [ih b hlt (Nat.lt_trans hlt ha)]

theorem Stands.mono (h : W.Stands a skip n) (hle : W.Le W') (hgood : W.GoodFrames)
    (hgood' : W'.GoodFrames) : W'.Stands a skip n where
  size := Nat.lt_of_lt_of_le h.size hle.frames
  around := h.around
  passes i f hf := by
    rw [hle.chain hgood hgood' h.size] at hf
    have hsize : f < W.left.frames.size :=
      Nat.lt_of_le_of_lt (Heap.mem_chain_le hgood.linked (List.mem_of_getElem? hf)) h.size
    exact (hle.bypassed f hsize).trans (h.passes i f hf)

/-- The frame that code runs in is bypassed if it is that of the scope to pass. -/
theorem Stands.bypassed_iff (h : W.Stands a skip n) (hgood : W.GoodFrames) :
    W.bypassed a ↔ ∃ w ∈ skip, w = n := by
  have hfirst := h.passes 0 a (by rw [Heap.chain_eq hgood.linked]; rfl)
  simpa using hfirst

/-- In a frame that is not bypassed, the scope to pass is further out. -/
theorem Stands.below (h : W.Stands a skip n) (hgood : W.GoodFrames) (hkept : ¬W.bypassed a) :
    ∀ w ∈ skip, w < n := by
  have hne := mt (h.bypassed_iff hgood).mpr hkept
  intro w hw
  exact Nat.lt_of_le_of_ne (h.around w hw) fun heq => hne ⟨w, hw, heq⟩

/-- The frame around a frame that is not bypassed. -/
theorem Stands.outer (h : W.Stands a skip n) (hgood : W.GoodFrames)
    (hlink : (W.left.frame a).enclosing = some b) (hkept : ¬W.bypassed a) :
    W.Stands b skip (n - 1) := by
  have hlt := hgood.linked a b hlink
  have hbelow := h.below hgood hkept
  constructor
  case size => exact Nat.lt_trans hlt h.size
  case around =>
    intro w hw
    exact Nat.le_sub_one_of_lt (hbelow w hw)
  case passes =>
    intro i f hf
    have hnext := h.passes (i + 1) f (by rw [Heap.chain_eq hgood.linked, hlink]; exact hf)
    rw [hnext]
    apply exists_congr
    intro w
    apply and_congr_right
    intro hw
    have hlt := hbelow w hw
    omega

/-- The frame around a bypassed frame, with nothing more to pass. -/
theorem Stands.beyond (h : W.Stands a skip n) (hgood : W.GoodFrames)
    (hlink : (W.left.frame a).enclosing = some b) (hpassed : W.bypassed a) :
    W.Stands b none (n - 1) := by
  have hlt := hgood.linked a b hlink
  refine ⟨Nat.lt_trans hlt h.size, nofun, ?_⟩
  intro i f hf
  have hnext := h.passes (i + 1) f (by rw [Heap.chain_eq hgood.linked, hlink]; exact hf)
  obtain ⟨w, hw, rfl⟩ := (h.bypassed_iff hgood).mp hpassed
  rw [hnext]
  constructor
  · rintro ⟨w', hw', heq⟩
    obtain rfl := Option.mem_unique hw hw'
    omega
  · rintro ⟨_, ⟨⟩, -⟩

/-- The frames outwards are the images of the frames outwards, without the one that is bypassed. -/
theorem Stands.chain (h : W.Stands a skip n) (hgood : W.GoodFrames) {d : Nat}
    (hd : ∀ w ∈ skip, d + w ≠ n) :
    (W.right.chain (W.image a))[passing skip n d]? = (W.left.chain a)[d]?.map W.image := by
  induction a using Nat.strongRecOn generalizing skip n d with
  | ind a ih =>
      rw [Heap.chain_eq hgood.linked]
      by_cases hpassed : W.bypassed a
      · obtain ⟨w, hw, rfl⟩ := (h.bypassed_iff hgood).mp hpassed
        obtain ⟨-, b, hlink, himage⟩ := hgood.passed a h.size hpassed
        have hbeyond := ih b (hgood.linked a b hlink) (h.beyond hgood hlink hpassed) (d := d - 1) nofun
        have hne := hd w hw
        obtain ⟨d, rfl⟩ : ∃ e, d = e + 1 := ⟨d - 1, by omega⟩
        cases hw
        have hpassing : passing (some w) w (d + 1) = d := by simp [passing]
        rw [hpassing, himage, hlink]
        exact hbeyond
      · obtain ⟨-, henclosing⟩ := hgood.kept a h.size hpassed
        rw [Heap.chain_eq hgood.linked', henclosing]
        cases d with
        | zero =>
            rw [passing_zero h.around]
            rfl
        | succ d =>
            have hbelow := h.below hgood hpassed
            rw [passing_outer hbelow]
            cases hlink : (W.left.frame a).enclosing with
            | none => rfl
            | some b =>
                refine ih b (hgood.linked a b hlink) (h.outer hgood hlink hpassed) fun w hw heq => ?_
                have hlt := hbelow w hw
                exact hd w hw (by omega)

/-- A frame that is not to be passed is not bypassed. -/
theorem Stands.kept (h : W.Stands a skip n) {d : Nat} {f : Address} (hd : ∀ w ∈ skip, d + w ≠ n)
    (hf : (W.left.chain a)[d]? = some f) : ¬W.bypassed f := by
  intro hpassed
  obtain ⟨w, hw, heq⟩ := (h.passes d f hf).mp hpassed
  exact hd w hw heq

/-! ### Variables -/

/-- One cause of a fault, which may tell different distances. -/
inductive SameCause : RuntimeCause → RuntimeCause → Prop
  | same (cause : RuntimeCause) : SameCause cause cause
  | missing (name : String) (d d' : Nat) :
    SameCause (.missingAtDistance name d) (.missingAtDistance name d')
  | short (d d' : Nat) : SameCause (.chainTooShort d) (.chainTooShort d')

/-- A frame that both heaps have. -/
structure Kept (W : Bypass) (f : Address) : Prop where
  size : f < W.left.frames.size
  kept : ¬W.bypassed f

/-- What a look-up finds on the two sides. -/
inductive Found (W : Bypass) : Except RuntimeCause Address → Except RuntimeCause Address → Prop
  | ok {f : Address} (hf : W.Kept f) : Found W (.ok f) (.ok (W.image f))
  | error {cause cause' : RuntimeCause} (h : SameCause cause cause') :
    Found W (.error cause) (.error cause')

theorem GoodFrames.find?_chain (hgood : W.GoodFrames) (name : String) (ha : a < W.left.frames.size) :
    ((W.right.chain (W.image a)).find? fun f => (W.right.frame f).bindings.contains name) =
      ((W.left.chain a).find? fun f => (W.left.frame f).bindings.contains name).map W.image := by
  induction a using Nat.strongRecOn with
  | ind a ih =>
      rw [Heap.chain_eq hgood.linked]
      by_cases hpassed : W.bypassed a
      · obtain ⟨hbindings, b, hlink, himage⟩ := hgood.passed a ha hpassed
        have hlt := hgood.linked a b hlink
        rw [List.find?_cons, hbindings, Bindings.contains_nil, hlink, himage]
        exact ih b hlt (Nat.lt_trans hlt ha)
      · obtain ⟨hbindings, henclosing⟩ := hgood.kept a ha hpassed
        rw [Heap.chain_eq hgood.linked', List.find?_cons, List.find?_cons, hbindings, henclosing]
        cases (W.left.frame a).bindings.contains name with
        | true => rfl
        | false =>
            cases hlink : (W.left.frame a).enclosing with
            | none => rfl
            | some b =>
                have hlt := hgood.linked a b hlink
                exact ih b hlt (Nat.lt_trans hlt ha)

/-- A frame that binds a name is in both heaps. -/
theorem GoodFrames.kept_of_contains (hgood : W.GoodFrames) {f : Address} {name : String}
    (hsize : f < W.left.frames.size) (h : (W.left.frame f).bindings.contains name = true) :
    W.Kept f := by
  refine ⟨hsize, fun hpassed => ?_⟩
  rw [(hgood.passed f hsize hpassed).1, Bindings.contains_nil] at h
  cases h

theorem GoodFrames.found_locate (hgood : W.GoodFrames) (name : String)
    (ha : a < W.left.frames.size) :
    W.Found (W.left.locate a name) (W.right.locate (W.image a) name) := by
  unfold Heap.locate
  rw [hgood.find?_chain name ha]
  cases hfind : (W.left.chain a).find? fun f => (W.left.frame f).bindings.contains name with
  | none => exact .error (.same _)
  | some f =>
      have hle := Heap.mem_chain_le hgood.linked (List.mem_of_find?_eq_some hfind)
      have hbinds := List.find?_some hfind
      exact .ok (hgood.kept_of_contains (Nat.lt_of_le_of_lt hle ha) hbinds)

theorem Stands.found_locateAt (h : W.Stands a skip n) (hgood : W.GoodFrames) (name : String)
    {d : Nat} (hd : ∀ w ∈ skip, d + w ≠ n) :
    W.Found (W.left.locateAt a d name)
      (W.right.locateAt (W.image a) (passing skip n d) name) := by
  unfold Heap.locateAt
  rw [h.chain hgood hd]
  cases hf : (W.left.chain a)[d]? with
  | none => exact .error (.short _ _)
  | some f =>
      have hle := Heap.mem_chain_le hgood.linked (List.mem_of_getElem? hf)
      have hkept : W.Kept f := ⟨Nat.lt_of_le_of_lt hle h.size, h.kept hd hf⟩
      dsimp only [Option.map_some]
      rw [(hgood.kept f hkept.size hkept.kept).1]
      split
      · exact .ok hkept
      · exact .error (.missing name _ _)

theorem GoodFrames.valueIn_image (hgood : W.GoodFrames) {f : Address} (hf : W.Kept f)
    (name : String) : W.right.valueIn name (W.image f) = W.left.valueIn name f := by
  rw [Heap.valueIn, (hgood.kept f hf.size hf.kept).1, Heap.valueIn]

/-! ### Operations -/

/-- A new frame in both heaps. -/
def addFrame (o o' : Frame) (W : Bypass) : Bypass where
  left := W.left.addFrame o
  right := W.right.addFrame o'
  image a := if a = W.left.frames.size then W.right.frames.size else W.image a
  bypassed a := a ≠ W.left.frames.size ∧ W.bypassed a

/-- A new frame in the first heap only, around which there is the frame `b`. -/
def addBypassed (b : Address) (o : Frame) (W : Bypass) : Bypass where
  left := W.left.addFrame o
  right := W.right
  image a := if a = W.left.frames.size then W.image b else W.image a
  bypassed a := a = W.left.frames.size ∨ W.bypassed a

/-- A value for a name in a frame that both heaps have. -/
def define (f : Address) (name : String) (v : Value) (W : Bypass) : Bypass where
  left := W.left.define f name v
  right := W.right.define (W.image f) name v
  image := W.image
  bypassed := W.bypassed

/-- A frame of the first heap and its counterpart in the second, each inside of the frame for `b`. -/
structure FramesAround (W : Bypass) (b : Address) (o o' : Frame) : Prop where
  size : b < W.left.frames.size
  bindings : o'.bindings = o.bindings
  enclosing : o.enclosing = some b
  enclosing' : o'.enclosing = some (W.image b)

theorem le_addFrame (o o' : Frame) (W : Bypass) : W.Le (W.addFrame o o') := by
  have hold : ∀ a < W.left.frames.size, (W.left.addFrame o).frame a = W.left.frame a := by
    intro a ha
    rw [Heap.frame_addFrame, if_neg (Nat.ne_of_lt ha)]
  refine { Le.refl W with frames := ?_, enclosing := ?_, image := ?_, bypassed := ?_ }
  · simp [addFrame]
  · exact fun a ha => congrArg Frame.enclosing (hold a ha)
  · exact fun a ha => if_neg (Nat.ne_of_lt ha)
  · exact fun a ha => and_iff_right (Nat.ne_of_lt ha)

theorem le_addBypassed (b : Address) (o : Frame) (W : Bypass) : W.Le (W.addBypassed b o) := by
  have hold : ∀ a < W.left.frames.size, (W.left.addFrame o).frame a = W.left.frame a := by
    intro a ha
    rw [Heap.frame_addFrame, if_neg (Nat.ne_of_lt ha)]
  refine { Le.refl W with frames := ?_, enclosing := ?_, image := ?_, bypassed := ?_ }
  · simp [addBypassed]
  · exact fun a ha => congrArg Frame.enclosing (hold a ha)
  · exact fun a ha => if_neg (Nat.ne_of_lt ha)
  · exact fun a ha => or_iff_right (Nat.ne_of_lt ha)

theorem le_define {f : Address} (hf : f < W.left.frames.size) (name : String) (v : Value) :
    W.Le (W.define f name v) := by
  refine { Le.refl W with frames := ?_, enclosing := ?_ }
  · simp [define]
  · intro a _
    rw [define, W.left.frame_define hf]
    split <;> rfl

end Bypass

theorem Heap.Linked.addFrame {h : Heap} (hlinked : h.Linked) {o : Frame} {b : Address}
    (hb : b < h.frames.size) (ho : o.enclosing = some b) : (h.addFrame o).Linked := by
  intro a c hlink
  rw [Heap.frame_addFrame] at hlink
  split at hlink
  case isTrue heq =>
    obtain rfl : b = c := Option.some.inj (ho.symm.trans hlink)
    rwa [heq]
  case isFalse => exact hlinked a c hlink

theorem Heap.Linked.define {h : Heap} (hlinked : h.Linked) {f : Address} (hf : f < h.frames.size)
    (name : String) (v : Value) : (h.define f name v).Linked := by
  intro a c hlink
  rw [h.frame_define hf] at hlink
  apply hlinked a c
  split at hlink <;> exact hlink

namespace Bypass

variable {W : Bypass} {a b f : Address} {o o' : Frame}

section

variable {image : Address → Address}

/-- Counterparts of the frames around a frame that was there before. -/
theorem GoodFrames.map_enclosing (hgood : W.GoodFrames)
    (hold : ∀ c < W.left.frames.size, image c = W.image c) (ha : a < W.left.frames.size) :
    (W.left.frame a).enclosing.map image = (W.left.frame a).enclosing.map W.image := by
  cases hlink : (W.left.frame a).enclosing with
  | none => rfl
  | some c => exact congrArg some (hold c (Nat.lt_trans (hgood.linked a c hlink) ha))

theorem GoodFrames.passed_of_image (hgood : W.GoodFrames)
    (hold : ∀ c < W.left.frames.size, image c = W.image c) (ha : a < W.left.frames.size)
    (hpassed : W.bypassed a) : (W.left.frame a).bindings = [] ∧
      ∃ c, (W.left.frame a).enclosing = some c ∧ image a = image c := by
  obtain ⟨hbindings, c, hlink, himage⟩ := hgood.passed a ha hpassed
  have hc := Nat.lt_trans (hgood.linked a c hlink) ha
  exact ⟨hbindings, c, hlink, by rw [hold a ha, hold c hc, himage]⟩

end

theorem GoodFrames.addFrame (hgood : W.GoodFrames) (hnew : W.FramesAround b o o') :
    (W.addFrame o o').GoodFrames := by
  have hb := hnew.size
  have himage := hgood.images b hb
  have hsize : (W.addFrame o o').left.frames.size = W.left.frames.size + 1 :=
    W.left.frames_size_addFrame o
  have hsize' : (W.addFrame o o').right.frames.size = W.right.frames.size + 1 :=
    W.right.frames_size_addFrame o'
  have hleft : ∀ a, (W.addFrame o o').left.frame a =
      if a = W.left.frames.size then o else W.left.frame a := W.left.frame_addFrame o
  have hright : ∀ a, (W.addFrame o o').right.frame a =
      if a = W.right.frames.size then o' else W.right.frame a := W.right.frame_addFrame o'
  have hold : ∀ a < W.left.frames.size, (W.addFrame o o').image a = W.image a :=
    (W.le_addFrame o o').image
  constructor
  case linked => exact hgood.linked.addFrame hb hnew.enclosing
  case linked' => exact hgood.linked'.addFrame himage hnew.enclosing'
  case globals =>
    rw [hsize]
    exact Nat.lt_succ_of_lt hgood.globals
  case image_globals => rw [hold _ hgood.globals, hgood.image_globals]
  case images =>
    intro a ha
    rw [hsize']
    by_cases heq : a = W.left.frames.size
    · simp [Bypass.addFrame, heq]
    · rw [hold a (by omega)]
      exact Nat.lt_succ_of_lt (hgood.images a (by omega))
  case kept =>
    intro a ha hkept
    by_cases heq : a = W.left.frames.size
    · subst heq
      simp only [if_true, Bypass.addFrame, Heap.frame_addFrame, hnew.bindings, hnew.enclosing,
        hnew.enclosing', Option.map_some, if_neg (Nat.ne_of_lt hb), true_and]
    · have hlt : a < W.left.frames.size := by omega
      have hne : ¬W.image a = W.right.frames.size := Nat.ne_of_lt (hgood.images a hlt)
      obtain ⟨hbindings, henclosing⟩ := hgood.kept a hlt fun hpassed => hkept ⟨heq, hpassed⟩
      rw [hold a hlt, hright, hleft, if_neg hne, if_neg heq, hbindings, henclosing]
      exact ⟨rfl, (hgood.map_enclosing hold hlt).symm⟩
  case passed =>
    rintro a ha ⟨heq, hpassed⟩
    rw [hsize] at ha
    have hlt : a < W.left.frames.size := Nat.lt_of_le_of_ne (Nat.le_of_lt_succ ha) heq
    rw [hleft, if_neg heq]
    exact hgood.passed_of_image hold hlt hpassed
  case distinct =>
    -- The counterpart of the new frame is new.
    have hnew : ∀ a < W.left.frames.size, (W.addFrame o o').image a ≠
        (W.addFrame o o').image W.left.frames.size := by
      intro a ha
      rw [hold a ha]
      simp only [Bypass.addFrame, if_true]
      exact Nat.ne_of_lt (hgood.images a ha)
    intro a ha c hc hkept hkept' heq
    rw [hsize] at ha hc
    by_cases hane : a = W.left.frames.size <;> by_cases hcne : c = W.left.frames.size
    · rw [hane, hcne]
    · have hlt : c < W.left.frames.size := by omega
      exact absurd (hane ▸ heq.symm) (hnew c hlt)
    · have hlt : a < W.left.frames.size := by omega
      exact absurd (hcne ▸ heq) (hnew a hlt)
    · rw [hold a (by omega), hold c (by omega)] at heq
      exact hgood.distinct a (by omega) c (by omega) (fun h => hkept ⟨hane, h⟩)
        (fun h => hkept' ⟨hcne, h⟩) heq

theorem GoodFrames.addBypassed (hgood : W.GoodFrames) (hb : b < W.left.frames.size)
    (hbindings : o.bindings = []) (henclosing : o.enclosing = some b) :
    (W.addBypassed b o).GoodFrames := by
  have hsize : (W.addBypassed b o).left.frames.size = W.left.frames.size + 1 :=
    W.left.frames_size_addFrame o
  have hleft : ∀ a, (W.addBypassed b o).left.frame a =
      if a = W.left.frames.size then o else W.left.frame a := W.left.frame_addFrame o
  have hright : (W.addBypassed b o).right = W.right := rfl
  have hold : ∀ a < W.left.frames.size, (W.addBypassed b o).image a = W.image a :=
    (W.le_addBypassed b o).image
  have hnew : (W.addBypassed b o).image W.left.frames.size = W.image b := if_pos rfl
  constructor
  case linked => exact hgood.linked.addFrame hb henclosing
  case linked' => exact hgood.linked'
  case globals =>
    rw [hsize]
    exact Nat.lt_succ_of_lt hgood.globals
  case image_globals => rw [hold _ hgood.globals, hgood.image_globals]
  case images =>
    intro a ha
    rw [hright]
    by_cases heq : a = W.left.frames.size
    · rw [heq, hnew]
      exact hgood.images b hb
    · rw [hold a (by omega)]
      exact hgood.images a (by omega)
  case kept =>
    intro a ha hkept
    have heq : ¬a = W.left.frames.size := fun heq => hkept (.inl heq)
    have hlt : a < W.left.frames.size := by omega
    obtain ⟨hbindings, henclosing⟩ := hgood.kept a hlt fun hpassed => hkept (.inr hpassed)
    rw [hold a hlt, hright, hleft, if_neg heq, hbindings, henclosing]
    exact ⟨rfl, (hgood.map_enclosing hold hlt).symm⟩
  case passed =>
    intro a ha hpassed
    by_cases heq : a = W.left.frames.size
    · rw [hleft, if_pos heq, heq, hnew]
      exact ⟨hbindings, b, henclosing, (hold b hb).symm⟩
    · have hlt : a < W.left.frames.size := by omega
      rw [hleft, if_neg heq]
      exact hgood.passed_of_image hold hlt (hpassed.resolve_left heq)
  case distinct =>
    intro a ha c hc hkept hkept' heq
    have hane : ¬a = W.left.frames.size := fun heq => hkept (.inl heq)
    have hcne : ¬c = W.left.frames.size := fun heq => hkept' (.inl heq)
    rw [hold a (by omega), hold c (by omega)] at heq
    exact hgood.distinct a (by omega) c (by omega) (fun h => hkept (.inr h))
      (fun h => hkept' (.inr h)) heq

theorem GoodFrames.define (hgood : W.GoodFrames) (hf : W.Kept f) (name : String) (v : Value) :
    (W.define f name v).GoodFrames := by
  have himage := hgood.images f hf.size
  have hsize : (W.define f name v).left.frames.size = W.left.frames.size :=
    W.left.frames_size_define name v
  have hsize' : (W.define f name v).right.frames.size = W.right.frames.size :=
    W.right.frames_size_define name v
  have hleft : ∀ a, (W.define f name v).left.frame a = if a = f then
      { W.left.frame a with bindings := (W.left.frame a).bindings.insert name v }
      else W.left.frame a := fun a => W.left.frame_define hf.size name v
  have hright : ∀ a, (W.define f name v).right.frame a = if a = W.image f then
      { W.right.frame a with bindings := (W.right.frame a).bindings.insert name v }
      else W.right.frame a := fun a => W.right.frame_define himage name v
  constructor
  case linked => exact hgood.linked.define hf.size name v
  case linked' => exact hgood.linked'.define himage name v
  case globals => rw [hsize]; exact hgood.globals
  case image_globals => exact hgood.image_globals
  case images => rw [hsize, hsize']; exact hgood.images
  case kept =>
    intro a ha hkept
    rw [hsize] at ha
    obtain ⟨hbindings, henclosing⟩ := hgood.kept a ha hkept
    have hsame : (W.define f name v).image a = W.image a := rfl
    rw [hsame, hleft, hright]
    by_cases heq : a = f
    · subst heq
      simp [hbindings, henclosing, Bypass.define]
    · have hne : ¬W.image a = W.image f :=
        fun h => heq (hgood.distinct a ha f hf.size hkept hf.kept h)
      rw [if_neg heq, if_neg hne]
      exact ⟨hbindings, henclosing⟩
  case passed =>
    intro a ha hpassed
    rw [hsize] at ha
    have hne : ¬a = f := fun heq => hf.kept (heq ▸ hpassed)
    rw [hleft, if_neg hne]
    exact hgood.passed a ha hpassed
  case distinct => rw [hsize]; exact hgood.distinct

/-- What does not touch frames leaves them good. -/
theorem GoodFrames.congr {W' : Bypass} (hgood : W.GoodFrames)
    (hleft : W'.left.frames = W.left.frames) (hright : W'.right.frames = W.right.frames)
    (himage : W'.image = W.image) (hbypassed : W'.bypassed = W.bypassed) : W'.GoodFrames := by
  have hframe : W'.left.frame = W.left.frame := by
    funext a
    rw [Heap.frame, hleft, Heap.frame]
  have hframe' : W'.right.frame = W.right.frame := by
    funext a
    rw [Heap.frame, hright, Heap.frame]
  obtain ⟨hlinked, hlinked', hglobals, himages, hsizes, hkept, hpassed, hdistinct⟩ := hgood
  unfold Heap.Linked at hlinked hlinked'
  rw [← hframe] at hlinked hkept hpassed
  rw [← hframe'] at hlinked' hkept
  rw [← himage] at himages hsizes hkept hpassed hdistinct
  rw [← hbypassed] at hkept hpassed hdistinct
  rw [← hleft] at hglobals hsizes hkept hpassed hdistinct
  rw [← hright] at hsizes
  exact ⟨hlinked, hlinked', hglobals, himages, hsizes, hkept, hpassed, hdistinct⟩

/-! ### Where code stands in new frames -/

variable {skip : Option Nat} {n : Nat}

theorem Stands.addFrame (h : W.Stands b skip n) (hgood : W.GoodFrames)
    (hnew : W.FramesAround b o o') :
    (W.addFrame o o').Stands W.left.frames.size skip (n + 1) := by
  have hgood' := hgood.addFrame hnew
  have houter := h.mono (W.le_addFrame o o') hgood hgood'
  have hframe : (W.addFrame o o').left.frame W.left.frames.size = o :=
    (W.left.frame_addFrame o _).trans (if_pos rfl)
  constructor
  case size => simp [Bypass.addFrame]
  case around => exact fun w hw => Nat.le_succ_of_le (h.around w hw)
  case passes =>
    intro i f hf
    rw [Heap.chain_eq hgood'.linked, hframe, hnew.enclosing] at hf
    cases i with
    | zero =>
        obtain rfl : W.left.frames.size = f := Option.some.inj hf
        constructor
        · rintro ⟨hne, -⟩
          exact absurd rfl hne
        · rintro ⟨w, hw, heq⟩
          have := h.around w hw
          omega
    | succ i =>
        rw [houter.passes i f hf]
        apply exists_congr
        intro w
        apply and_congr_right
        intro _
        omega

theorem Stands.addBypassed (h : W.Stands b none n) (hgood : W.GoodFrames)
    (hbindings : o.bindings = []) (henclosing : o.enclosing = some b) :
    (W.addBypassed b o).Stands W.left.frames.size (some (n + 1)) (n + 1) := by
  have hgood' := hgood.addBypassed h.size hbindings henclosing
  have houter := h.mono (W.le_addBypassed b o) hgood hgood'
  have hframe : (W.addBypassed b o).left.frame W.left.frames.size = o :=
    (W.left.frame_addFrame o _).trans (if_pos rfl)
  constructor
  case size => simp [Bypass.addBypassed]
  case around => simp
  case passes =>
    intro i f hf
    rw [Heap.chain_eq hgood'.linked, hframe, henclosing] at hf
    cases i with
    | zero =>
        obtain rfl : W.left.frames.size = f := Option.some.inj hf
        simp [Bypass.addBypassed]
    | succ i =>
        rw [houter.passes i f hf]
        simp

end Bypass

end LoxLang
