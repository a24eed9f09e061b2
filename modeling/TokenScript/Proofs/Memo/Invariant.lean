import Mathlib.Data.List.Basic
import TokenScript.Machine
import TokenScript.Proofs.Coupled

/-!
# What the memory of closes may hold

A world that remembers closes files them under the address of the code and the index of the opener,
and not under the policy of the scan.  That is enough because the word at an index fixes the policy:
`BlockPolicy.ofOpener?`.  `Remembers frames world` says that the memory of a world is right:
whatever it holds for a piece of code that can still be executed is what a scan would find.  The
pieces that can still be executed are those in the frames, which may have been replaced in the table
already, and those in the table.

Addresses are given again, so the memory is right only as long as no two such pieces share one.  A
body in a frame is safe from being overwritten because the call that runs it holds its address:
`Pinned`.  When a body is stored, what is remembered under its address may be about a body that lay
there before, and all of it is forgotten.

`Alike frames world plain` relates a world to one without memory: they are equal in all but the
memory and the scans that the journal tells of.

* `Pinned`: every address in the frames is held by a call.
* `Remembers.define`: storing a body and forgetting all closes keeps the memory right.
* `Remembers.insert`: so does remembering a close that a scan found.
* `Remembers.call`, `Remembers.endCall`: so do the start and the end of a call.
-/

namespace TokenScript

/-! ## The journal without its scans -/

/-- Whether an event tells of a scan. -/
def Event.isMatch : Event → Bool
  | blockMatched .. => true
  | _ => false

/-- A journal without the events that tell of a scan. -/
def Journal.withoutMatches (journal : Journal) : Journal :=
  { journal with entries := journal.entries.filter fun event => !event.isMatch }

namespace Journal

theorem keeps_withoutMatches (journal : Journal) (event : Event) :
    journal.withoutMatches.keeps event = journal.keeps event := rfl

theorem withoutMatches_note_of_match (journal : Journal) {event : Event}
    (h : event.isMatch = true) : (journal.note event).withoutMatches = journal.withoutMatches := by
  unfold note
  split
  · simp [withoutMatches, h]
  · rfl

theorem withoutMatches_note (journal : Journal) {event : Event} (h : event.isMatch = false) :
    (journal.note event).withoutMatches = journal.withoutMatches.note event := by
  unfold note
  rw [keeps_withoutMatches]
  split
  · simp [withoutMatches, h]
  · rfl

end Journal

/-! ## Openers and policies -/

/-- The policy of the scan that a word starts. -/
def BlockPolicy.ofOpener? : Keyword → Option BlockPolicy
  | .ifClause | .elifClause => some conditional
  | .elseClause => some elseClause
  | .whileLoop | .forLoop => some loop
  | .func => some function
  | _ => none

/-- The policy of the scan that starts at an index of the code. -/
def Code.policyAt? (code : Code) (start : Nat) : Option BlockPolicy :=
  (code.tokens[start]?.bind Token.keyword?).bind BlockPolicy.ofOpener?

theorem Token.keyword?_of_isKeyword {t : Token} {word : Keyword} (h : t.isKeyword word = true) :
    t.keyword? = some word := by
  have hk : t.kind = .keyword word := of_decide_eq_true h
  simp [Token.keyword?, hk]

theorem Code.policyAt?_of_isKeyword {code : Code} {start : Nat} {t : Token} {word : Keyword}
    (ht : code.tokens[start]? = some t) (h : t.isKeyword word = true) :
    code.policyAt? start = BlockPolicy.ofOpener? word := by
  rw [Code.policyAt?, ht]
  simp [Token.keyword?_of_isKeyword h]

/-! ## Code that can still be executed -/

/-- The code that a frame executes. -/
def Frame.code? : Frame → Option Code
  | .block code _ _ => some code
  | .retest code _ _ _ => some code
  | .count code _ _ _ _ _ => some code
  | .call => none

theorem Machine.elseFrames_code? {code : Code} {loop : Loop} :
    ∀ frame ∈ elseFrames code loop, frame.code? = some code := by
  intro frame hmem
  obtain ⟨extent, -, rfl⟩ := Option.map_eq_some_iff.1 (Option.mem_toList.1 hmem)
  rfl

/-- The code that frames execute. -/
def Frame.codes (frames : List Frame) : List Code := frames.filterMap Frame.code?

/-- The code of every frame is a program, or lies at an address that its call holds or one further
out does. -/
def Pinned (held : List Nat) : List Frame → Prop
  | [] => True
  | frame :: rest =>
    match frame.code? with
    | some code => (code.address = 0 ∨ code.address ∈ held) ∧ Pinned held rest
    | none => Pinned held.tail rest

namespace Pinned

variable {held : List Nat} {frame : Frame} {extra rest frames : List Frame} {code : Code}

theorem cons_iff (hcode : frame.code? = some code) :
    Pinned held (frame :: rest) ↔
      (code.address = 0 ∨ code.address ∈ held) ∧ Pinned held rest := by
  rw [Pinned, hcode]

theorem append (h : Pinned held rest) (haddress : code.address = 0 ∨ code.address ∈ held)
    (hextra : ∀ frame ∈ extra, frame.code? = some code) : Pinned held (extra ++ rest) := by
  induction extra with
  | nil => exact h
  | cons frame extra ih =>
    rw [List.forall_mem_cons] at hextra
    exact (cons_iff hextra.1).2 ⟨haddress, ih hextra.2⟩

theorem address_mem (h : Pinned held frames) (hcode : code ∈ Frame.codes frames) :
    code.address = 0 ∨ code.address ∈ held := by
  induction frames generalizing held with
  | nil => cases hcode
  | cons frame rest ih =>
    cases hframe : frame.code? with
    | none =>
      rw [Frame.codes, List.filterMap_cons_none hframe] at hcode
      rw [Pinned, hframe] at h
      exact (ih h hcode).imp id List.mem_of_mem_tail
    | some top =>
      rw [Frame.codes, List.filterMap_cons_some hframe] at hcode
      rw [cons_iff hframe] at h
      rcases List.mem_cons.1 hcode with rfl | hcode
      · exact h.1
      · exact ih h.2 hcode

end Pinned

/-- Code that can still be executed. -/
def Live (frames : List Frame) (context : Context) (code : Code) : Prop :=
  code ∈ Frame.codes frames ∨ ∃ name, context.functions.get? name = some code

namespace Live

variable {frames more : List Frame} {context changed : Context} {code : Code}

theorem mono (h : Live frames context code) (hsub : Frame.codes frames ⊆ Frame.codes more) :
    Live more context code :=
  h.imp (fun hmem => hsub hmem) id

theorem of_functions_eq (h : Live frames changed code)
    (hfun : changed.functions = context.functions) : Live frames context code := by
  rwa [Live, hfun] at h

end Live

/-! ## A memory that is right -/

variable {σ : Type}

/-- The memory of a world is right for the code that can still be executed. -/
structure Remembers (frames : List Frame) (world : World σ) : Prop where
  /-- No body is placed over code of the frames. -/
  pinned : Pinned world.held frames
  /-- Addresses tell code apart. -/
  apart : ∀ code other, Live frames world.context code → Live frames world.context other →
    code.address = other.address → code = other
  /-- A close that is remembered is the one that a scan finds. -/
  right : ∀ memo, world.closes = some memo → ∀ code, Live frames world.context code →
    ∀ start index, memo[(code.address, start)]? = some index →
      ∃ policy found, code.policyAt? start = some policy ∧
        policy.close code.tokens start = .ok found ∧ found.index = index

/-- A world and one without memory that differ in nothing else but the scans. -/
structure Alike (frames : List Frame) (world plain : World σ) : Prop where
  context : world.context = plain.context
  console : world.console = plain.console
  held : world.held = plain.held
  journal : world.journal.withoutMatches = plain.journal.withoutMatches
  scans : plain.closes = none
  memory : Remembers frames world

namespace Remembers

variable {frames more : List Frame} {world other : World σ}

/-- What matters of the frames is their code and that it is pinned, and what matters of the world
are its functions and its memory. -/
theorem of_live (h : Remembers more world) (hpinned : Pinned other.held frames)
    (hlive : ∀ code, Live frames other.context code → Live more world.context code)
    (hcloses : other.closes = world.closes) : Remembers frames other where
  pinned := hpinned
  apart code another hc ha := h.apart code another (hlive code hc) (hlive another ha)
  right memo hmemo code hc := h.right memo (hcloses ▸ hmemo) code (hlive code hc)

theorem congr (h : Remembers frames world)
    (hfun : other.context.functions = world.context.functions) (hheld : other.held = world.held)
    (hcloses : other.closes = world.closes) : Remembers frames other := by
  refine h.of_live (hheld ▸ h.pinned) (fun code hcode => ?_) hcloses
  exact hcode.of_functions_eq hfun

/-- Some frames take the place of one that executes the same code. -/
theorem replace {frame : Frame} {extra rest : List Frame} {code : Code}
    (h : Remembers (frame :: rest) world) (hcode : frame.code? = some code)
    (hextra : ∀ above ∈ extra, above.code? = some code) : Remembers (extra ++ rest) world := by
  obtain ⟨haddress, hrest⟩ := (Pinned.cons_iff hcode).1 h.pinned
  refine h.of_live (hrest.append haddress hextra) (fun other hother => hother.mono ?_) rfl
  intro other hmem
  rw [Frame.codes, List.filterMap_append, List.mem_append] at hmem
  rw [Frame.codes, List.filterMap_cons_some hcode]
  rcases hmem with hmem | hmem
  · obtain ⟨taken, htaken, hsome⟩ := List.mem_filterMap.1 hmem
    rw [hextra taken htaken] at hsome
    exact List.mem_cons.2 (Or.inl (Option.some.inj hsome).symm)
  · exact List.mem_cons_of_mem code hmem

/-- A body from the table is called. -/
theorem call {name : String} {body : Code} (h : Remembers frames world)
    (hget : world.context.functions.get? name = some body) (start stop : Nat) :
    Remembers (.block body start stop :: .call :: frames) (world.hold body) := by
  refine h.of_live ?_ ?_ rfl
  · exact (Pinned.cons_iff rfl).2 ⟨Or.inr List.mem_cons_self, h.pinned⟩
  · rintro code (hmem | hstored)
    · rcases List.mem_cons.1 hmem with rfl | hmem
      · exact Or.inr ⟨name, hget⟩
      · exact Or.inl hmem
    · exact Or.inr hstored

/-- A call ends, and its body may be overwritten. -/
theorem endCall (h : Remembers (.call :: frames) world) : Remembers frames world.endCall :=
  h.of_live h.pinned (fun _ hcode => hcode) rfl

/-- Storing a body and forgetting all closes. -/
theorem define (h : Remembers frames world) (name : String) (body : Array Token)
    (hcontext : other.context = world.context.define name body world.held)
    (hheld : other.held = world.held)
    (hcloses : other.closes = world.closes.map fun _ => ∅) : Remembers frames other := by
  have hfun : other.context.functions = world.context.functions.define name body world.held := by
    rw [hcontext]
    rfl
  -- code that can be executed afterwards is the new body, or could be executed before, elsewhere
  have hlive : ∀ code, Live frames other.context code →
      code = ⟨world.context.functions.nextAddress world.held, body⟩ ∨
        Live frames world.context code ∧
          world.context.functions.nextAddress world.held ≠ code.address := by
    rintro code (hmem | ⟨called, hget⟩)
    · refine Or.inr ⟨Or.inl hmem, fun heq => ?_⟩
      refine world.context.functions.nextAddress_not_mem world.held ?_
      rw [heq]
      exact List.mem_cons.2 ((h.pinned.address_mem hmem).imp id (List.mem_append_left _))
    · rw [hfun] at hget
      rcases FunctionTable.stored_cases hget with ⟨-, rfl⟩ | ⟨-, hold⟩
      · exact Or.inl rfl
      · exact Or.inr ⟨Or.inr ⟨called, hold⟩, FunctionTable.nextAddress_ne hold world.held⟩
  refine ⟨hheld ▸ h.pinned, ?_, ?_⟩
  · intro code another hc ha haddress
    rcases hlive code hc with rfl | ⟨hcold, hcne⟩ <;>
      rcases hlive another ha with rfl | ⟨haold, hane⟩
    · rfl
    · exact absurd haddress hane
    · exact absurd haddress.symm hcne
    · exact h.apart code another hcold haold haddress
  · intro memo hmemo code hc start index hindex
    rw [hcloses] at hmemo
    obtain ⟨old, -, rfl⟩ := Option.map_eq_some_iff.1 hmemo
    simp at hindex

/-- Remembering a close that a scan found. -/
theorem insert (h : Remembers frames world) {code : Code} {start : Nat} {policy : BlockPolicy}
    {found : BlockPolicy.Close} (hrun : code ∈ Frame.codes frames)
    (hpolicy : code.policyAt? start = some policy)
    (hclose : policy.close code.tokens start = .ok found)
    (hfun : other.context.functions = world.context.functions) (hheld : other.held = world.held)
    (hcloses : other.closes =
      world.closes.map fun memo => memo.insert (code.address, start) found.index) :
    Remembers frames other := by
  refine ⟨hheld ▸ h.pinned, ?_, ?_⟩
  · intro code another hc ha
    exact h.apart code another (hc.of_functions_eq hfun) (ha.of_functions_eq hfun)
  · intro memo hmemo another ha place index hindex
    rw [hcloses] at hmemo
    obtain ⟨old, hold, rfl⟩ := Option.map_eq_some_iff.1 hmemo
    rw [Std.HashMap.getElem?_insert] at hindex
    split at hindex
    · next hkey =>
      obtain ⟨haddress, hplace⟩ := Prod.mk.inj (eq_of_beq hkey)
      have hsame := h.apart code another (Or.inl hrun) (ha.of_functions_eq hfun) haddress
      subst hsame hplace
      exact ⟨policy, found, hpolicy, hclose, Option.some.inj hindex⟩
    · exact h.right old hold another (ha.of_functions_eq hfun) place index hindex

end Remembers
end TokenScript
