import Garuda.Chat.Encode

/-!
# Who places the control tokens of a prompt

A template is a row of slots: stretches of text, markers, and end-of-turn ids. A prompt is placed
if it is such a row, filled in, where no text slot holds a control id.

* `template` — the slots that a format's template calls for
* `Placed` — the prompt is the template, filled in
* `Spares` — no role but the three known ones spells a control id

`placed_iff` is the equivalence of the two for a tokenizer whose text has no control ids, and
`role_places_control` a prompt that is not placed.
-/

namespace Garuda.Chat

open Infra

/-! ## Templates -/

inductive Role where
  | system
  | user
  | assistant
  | other
  deriving DecidableEq

def Role.of (role : String) : Role :=
  if role = "system" then system
  else if role = "user" then user
  else if role = "assistant" then assistant
  else other

inductive Slot where
  | text (s : String)
  | marker (m : String)
  /-- The end-of-turn id. -/
  | close
  deriving DecidableEq

def Slot.isMark : Slot → Bool
  | text _ => false
  | marker _ | close => true

def Slot.ofPiece : Piece → Slot
  | .marker m => .marker m
  | .text t => .text t

/-- What opens a turn. Only the three known roles have an opening of their own. -/
def opening (fmt : ChatFormat) (role : String) : List Slot :=
  match fmt with
  | .zephyr =>
    [if Role.of role = .other then .text s!"<|{role}|>" else .marker s!"<|{role}|>", .text "\n"]
  | fmt => (fmt.prefixPieces role).map Slot.ofPiece

def turnSlots (fmt : ChatFormat) (role content : String) : List Slot :=
  opening fmt role ++ [.text content, .close, .text fmt.separator]

/-- System text waits for the next user's turn, and only an assistant's turn is closed. -/
def mistralSlots : String → List (String × String) → List Slot
  | system, [] => if system.isEmpty then [] else [.text s!"[INST] {system} [/INST]"]
  | system, (role, content) :: turns =>
    match Role.of role with
    | .system =>
      mistralSlots ((if system.isEmpty then system else system ++ "\n\n") ++ content) turns
    | .assistant => .text content :: .close :: mistralSlots system turns
    | .user | .other =>
      let body := if system.isEmpty then content else s!"{system}\n\n{content}"
      .text s!"[INST] {body} [/INST]" :: mistralSlots "" turns

/-- The slots that the format's template calls for. -/
def template (fmt : ChatFormat) (turns : List (String × String)) : List Slot :=
  match fmt with
  | .plain => [.text (renderPlain turns)]
  | .mistral => mistralSlots "" turns
  | fmt => turns.flatMap (fun (role, content) => turnSlots fmt role content) ++
      fmt.generationPieces.map Slot.ofPiece

/-! ### Its marks, from the roles alone -/

def openingMarks : ChatFormat → Role → List Slot
  | .zephyr, .system => [.marker "<|system|>"]
  | .zephyr, .user => [.marker "<|user|>"]
  | .zephyr, .assistant => [.marker "<|assistant|>"]
  | .zephyr, .other => []
  | .chatMl, _ | .qwen35, _ | .qwen35Thinking, _ => [.marker "<|im_start|>"]
  | .llama3, _ => [.marker "<|start_header_id|>", .marker "<|end_header_id|>"]
  | .plain, _ | .mistral, _ => []

def generationMarks : ChatFormat → List Slot
  | .zephyr => [.marker "<|assistant|>"]
  | .chatMl => [.marker "<|im_start|>"]
  | .qwen35 => [.marker "<|im_start|>", .marker "<think>", .marker "</think>"]
  | .qwen35Thinking => [.marker "<|im_start|>", .marker "<think>"]
  | .llama3 => [.marker "<|start_header_id|>", .marker "<|end_header_id|>"]
  | .plain | .mistral => []

/-- Whether the format closes a turn of this role. -/
def closes : ChatFormat → Role → Bool
  | .plain, _ => false
  | .mistral, role => role = .assistant
  | _, _ => true

def turnMarks (fmt : ChatFormat) (role : Role) : List Slot :=
  openingMarks fmt role ++ if closes fmt role then [.close] else []

/-- The markers and end-of-turn ids of a template, in order. -/
def marks (fmt : ChatFormat) (roles : List Role) : List Slot :=
  roles.flatMap (turnMarks fmt) ++ generationMarks fmt

/-! ## Filling the slots -/

section

variable (tk : Tokenize) (isControl : Token → Bool) (bos : Option Token)

def ControlFree (ids : List Token) : Prop := ∀ id ∈ ids, isControl id = false

/-- The tokenizer makes no control id of text, but for the leading begin-of-sequence. -/
structure TextOnly : Prop where
  encode : ∀ s, ∃ body, tk.encode s = bos.toList ++ body ∧ ControlFree isControl body
  fragment : ∀ s, ControlFree isControl (tk.encodeFragment s)

/-- What stands for a stretch of text: its encoding, as the beginning of a prompt or within it, or
the vocabulary's own entry. -/
inductive Spelled : String → List Token → Prop where
  | empty : Spelled "" []
  | encode {s : String} {body : List Token} (h : tk.encode s = bos.toList ++ body) : Spelled s body
  | fragment (s : String) : Spelled s (tk.encodeFragment s)
  | entry {s : String} {id : Token} (h : tk.tokenId s = some id) : Spelled s [id]

inductive Fits (fmt : ChatFormat) : Slot → List Token → Prop where
  | text {s : String} {ids : List Token} (h : Spelled tk bos s ids)
      (hfree : ControlFree isControl ids) : Fits fmt (.text s) ids
  | marker {m : String} {id : Token} (h : tk.tokenId m = some id) : Fits fmt (.marker m) [id]
  /-- A marker that the vocabulary does not hold is text. -/
  | missing {m : String} {ids : List Token} (h : tk.tokenId m = none) (hs : Spelled tk bos m ids)
      (hfree : ControlFree isControl ids) : Fits fmt (.marker m) ids
  | close : Fits fmt .close [fmt.turnEndId tk]

/-- `out` is the row of slots filled in, after what the checkpoint leads with, or nothing at
all. -/
def Filled (fmt : ChatFormat) (slots : List Slot) (out : List Token) : Prop :=
  ∃ blank parts, ControlFree isControl blank ∧
    List.Forall₂ (Fits tk isControl bos fmt) slots parts ∧
    (out = bos.toList ++ blank ++ parts.flatten ∨ out = [] ∧ parts.flatten = [])

/-- **The prompt is the template, filled in**, whose marks depend on the roles' kinds alone. -/
structure Placed (fmt : ChatFormat) (turns : List (String × String)) : Prop where
  filled : Filled tk isControl bos fmt (template fmt turns) (encodeChat fmt tk turns)
  marks : (template fmt turns).filter Slot.isMark = marks fmt (turns.map fun turn => Role.of turn.1)
  closed : (template fmt turns).count .close =
    (turns.map fun turn => Role.of turn.1).countP (closes fmt)

/-- Whether a role that no template knows spells a control id as Zephyr opens a turn. -/
def foreign (role : String) : Bool :=
  decide (Role.of role = .other) && (tk.tokenId s!"<|{role}|>").any isControl

/-- No role but the three known ones spells a control id. -/
def Spares (fmt : ChatFormat) (turns : List (String × String)) : Prop :=
  fmt = .zephyr → ∀ turn ∈ turns, foreign tk isControl turn.1 = false

end

/-! ## The slots that the code fills -/

variable {tk : Tokenize} {isControl : Token → Bool} {bos : Option Token} {fmt : ChatFormat}

def Slot.seg (tk : Tokenize) (fmt : ChatFormat) : Slot → Seg
  | text s => .text s
  | marker m => (Piece.marker m).resolve tk
  | close => .control (fmt.turnEndId tk)

/-- A turn as the code opens it: with a marker, whatever the role. -/
def sourceTurn (fmt : ChatFormat) (role content : String) : List Slot :=
  (fmt.prefixPieces role).map Slot.ofPiece ++ [.text content, .close, .text fmt.separator]

/-- As the template, but with a marker for every role. -/
def source (fmt : ChatFormat) (turns : List (String × String)) : List Slot :=
  match fmt with
  | .plain => [.text (renderPlain turns)]
  | .mistral => mistralSlots "" turns
  | fmt => turns.flatMap (fun (role, content) => sourceTurn fmt role content) ++
      fmt.generationPieces.map Slot.ofPiece

@[simp] theorem seg_ofPiece (p : Piece) : (Slot.ofPiece p).seg tk fmt = p.resolve tk := by
  cases p <;> rfl

theorem seg_comp_ofPiece : Slot.seg tk fmt ∘ Slot.ofPiece = Piece.resolve tk := by
  funext p
  exact seg_ofPiece p

theorem mistralFrom_eq (turns : List (String × String)) : ∀ system : String,
    mistralFrom (fmt.turnEndId tk) system turns
      = (mistralSlots system turns).map (Slot.seg tk fmt) := by
  induction turns with
  | nil =>
    intro system
    rw [mistralFrom, mistralSlots]
    split <;> rfl
  | cons turn turns ih =>
    obtain ⟨role, content⟩ := turn
    intro system
    rw [mistralFrom, mistralSlots]
    by_cases hs : role = "system"
    · subst hs
      exact ih _
    · by_cases ha : role = "assistant"
      · subst ha
        exact congrArg (Seg.text content :: Seg.control (fmt.turnEndId tk) :: ·) (ih system)
      · rw [if_neg hs, if_neg ha]
        by_cases hu : role = "user"
        · subst hu
          exact congrArg (_ :: ·) (ih "")
        · have hrole : Role.of role = .other := by simp [Role.of, hs, ha, hu]
          rw [hrole]
          exact congrArg (_ :: ·) (ih "")

/-- The code's segments are the source slots, resolved. -/
theorem encodeChat_eq (hplain : fmt ≠ .plain) (turns : List (String × String)) :
    encodeChat fmt tk turns = emit tk true ((source fmt turns).map (Slot.seg tk fmt)) := by
  unfold encodeChat
  rw [if_neg hplain]
  cases fmt with
  | plain => exact absurd rfl hplain
  | mistral => exact congrArg (emit tk true) (mistralFrom_eq turns "")
  | _ =>
    refine congrArg (emit tk true) ?_
    simp only [source, sourceTurn, ChatFormat.turnSegments, List.map_append, List.map_flatMap,
      List.map_map, seg_comp_ofPiece]
    rfl

/-! ## What the code emits -/

theorem emit_text (htk : TextOnly tk isControl bos) (s : String) :
    ∃ ids, Spelled tk bos s ids ∧ ControlFree isControl ids ∧
      ∀ segs, emit tk false (.text s :: segs) = ids ++ emit tk false segs := by
  by_cases hs : s = ""
  · subst hs
    exact ⟨[], .empty, fun id hid => absurd hid List.not_mem_nil, fun segs => rfl⟩
  · refine ⟨_, .fragment s, htk.fragment s, fun segs => ?_⟩
    rw [emit, if_neg (by simpa using hs)]
    rfl

/-- The first text there is leads, and an empty one is passed over. -/
theorem emit_first_text (htk : TextOnly tk isControl bos) (s : String) :
    ∃ ids, Spelled tk bos s ids ∧ ControlFree isControl ids ∧
      ((ids = [] ∧ ∀ segs, emit tk true (.text s :: segs) = emit tk true segs) ∨
        ∀ segs, emit tk true (.text s :: segs) = bos.toList ++ ids ++ emit tk false segs) := by
  by_cases hs : s = ""
  · subst hs
    exact ⟨[], .empty, fun id hid => absurd hid List.not_mem_nil, .inl ⟨rfl, fun segs => rfl⟩⟩
  · obtain ⟨body, hbody, hfree⟩ := htk.encode s
    refine ⟨body, .encode hbody, hfree, .inr fun segs => ?_⟩
    rw [emit, if_neg (by simpa using hs), if_pos rfl, hbody]

theorem emit_slot (fmt : ChatFormat) (htk : TextOnly tk isControl bos) (slot : Slot) :
    ∃ ids, Fits tk isControl bos fmt slot ids ∧
      ∀ segs, emit tk false (slot.seg tk fmt :: segs) = ids ++ emit tk false segs := by
  cases slot with
  | text s =>
    obtain ⟨ids, hs, hfree, heq⟩ := emit_text htk s
    exact ⟨ids, .text hs hfree, heq⟩
  | marker m =>
    cases hm : tk.tokenId m with
    | some id =>
      refine ⟨[id], .marker hm, fun segs => ?_⟩
      rw [Slot.seg, Piece.resolve, hm]
      rfl
    | none =>
      obtain ⟨ids, hs, hfree, heq⟩ := emit_text htk m
      refine ⟨ids, .missing hm hs hfree, fun segs => ?_⟩
      rw [Slot.seg, Piece.resolve, hm]
      exact heq segs
  | close => exact ⟨_, .close, fun segs => rfl⟩

theorem emit_first_slot (fmt : ChatFormat) (htk : TextOnly tk isControl bos) (slot : Slot) :
    ∃ blank ids, ControlFree isControl blank ∧ Fits tk isControl bos fmt slot ids ∧
      ((ids = [] ∧ ∀ segs, emit tk true (slot.seg tk fmt :: segs) = emit tk true segs) ∨
        ∀ segs, emit tk true (slot.seg tk fmt :: segs)
          = bos.toList ++ blank ++ ids ++ emit tk false segs) := by
  obtain ⟨blank, hblank, hfree0⟩ := htk.encode ""
  have hnil : ControlFree isControl [] := fun id hid => absurd hid List.not_mem_nil
  have hcontrol : ∀ (id : Token) segs, emit tk true (.control id :: segs)
      = bos.toList ++ blank ++ [id] ++ emit tk false segs := by
    intro id segs
    rw [emit, if_pos rfl, hblank, List.append_assoc _ [id], List.singleton_append]
  cases slot with
  | text s =>
    obtain ⟨ids, hs, hfree, heq⟩ := emit_first_text htk s
    refine ⟨[], ids, hnil, .text hs hfree, heq.imp_right fun heq segs => ?_⟩
    rw [List.append_nil]
    exact heq segs
  | marker m =>
    cases hm : tk.tokenId m with
    | some id =>
      refine ⟨blank, [id], hfree0, .marker hm, .inr fun segs => ?_⟩
      rw [Slot.seg, Piece.resolve, hm]
      exact hcontrol id segs
    | none =>
      obtain ⟨ids, hs, hfree, heq⟩ := emit_first_text htk m
      refine ⟨[], ids, hnil, .missing hm hs hfree, ?_⟩
      rw [Slot.seg, Piece.resolve, hm, List.append_nil]
      exact heq
  | close => exact ⟨blank, _, hfree0, .close, .inr fun segs => hcontrol _ segs⟩

theorem emit_rest (fmt : ChatFormat) (htk : TextOnly tk isControl bos) (slots : List Slot) :
    ∃ parts, List.Forall₂ (Fits tk isControl bos fmt) slots parts ∧
      emit tk false (slots.map (Slot.seg tk fmt)) = parts.flatten := by
  induction slots with
  | nil => exact ⟨[], .nil, rfl⟩
  | cons slot slots ih =>
    obtain ⟨parts, hparts, heq⟩ := ih
    obtain ⟨ids, hids, hemit⟩ := emit_slot fmt htk slot
    refine ⟨ids :: parts, .cons hids hparts, ?_⟩
    rw [List.map_cons, hemit, heq, List.flatten_cons]

/-- **The code fills every slot.** -/
theorem emit_filled (htk : TextOnly tk isControl bos) (slots : List Slot) :
    Filled tk isControl bos fmt slots (emit tk true (slots.map (Slot.seg tk fmt))) := by
  induction slots with
  | nil =>
    exact ⟨[], [], fun id hid => absurd hid List.not_mem_nil, .nil, .inr ⟨rfl, rfl⟩⟩
  | cons slot slots ih =>
    obtain ⟨blank, ids, hblank, hids, ⟨rfl, hemit⟩ | hemit⟩ := emit_first_slot fmt htk slot
    · obtain ⟨blank', parts, hblank', hparts, heq⟩ := ih
      refine ⟨blank', [] :: parts, hblank', .cons hids hparts, ?_⟩
      rw [List.map_cons, hemit, List.flatten_cons, List.nil_append]
      exact heq
    · obtain ⟨parts, hparts, heq⟩ := emit_rest fmt htk slots
      refine ⟨blank, ids :: parts, hblank, .cons hids hparts, .inl ?_⟩
      rw [List.map_cons, hemit, heq, List.flatten_cons, List.append_assoc _ ids]

/-! ## The template's marks -/

theorem turnSlots_marks (hplain : fmt ≠ .plain) (hmistral : fmt ≠ .mistral)
    (role content : String) :
    (turnSlots fmt role content).filter Slot.isMark = turnMarks fmt (Role.of role) := by
  cases fmt with
  | plain => exact absurd rfl hplain
  | mistral => exact absurd rfl hmistral
  | zephyr =>
    by_cases hs : role = "system"
    · subst hs; rfl
    · by_cases hu : role = "user"
      · subst hu; rfl
      · by_cases ha : role = "assistant"
        · subst ha; rfl
        · have hrole : Role.of role = .other := by simp [Role.of, hs, ha, hu]
          rw [turnSlots, opening, if_pos hrole, hrole]
          rfl
  | _ => rfl

theorem mistralSlots_marks (turns : List (String × String)) : ∀ system : String,
    (mistralSlots system turns).filter Slot.isMark
      = marks .mistral (turns.map fun turn => Role.of turn.1) := by
  induction turns with
  | nil =>
    intro system
    rw [mistralSlots]
    split <;> rfl
  | cons turn turns ih =>
    obtain ⟨role, content⟩ := turn
    intro system
    rw [mistralSlots, List.map_cons, marks, List.flatMap_cons]
    cases hrole : Role.of role with
    | assistant =>
      have hrest := ih system
      simp only [List.filter_cons, Slot.isMark, hrest]
      rfl
    | _ => exact ih _

/-- **The marks of a template depend on the roles' kinds alone.** -/
theorem template_marks (fmt : ChatFormat) (turns : List (String × String)) :
    (template fmt turns).filter Slot.isMark = marks fmt (turns.map fun turn => Role.of turn.1) := by
  have hgen : (fmt.generationPieces.map Slot.ofPiece).filter Slot.isMark = generationMarks fmt := by
    cases fmt <;> rfl
  by_cases hplain : fmt = .plain
  · subst hplain
    have hnone : ∀ roles : List Role, roles.flatMap (turnMarks .plain) = [] := by
      intro roles
      refine List.flatMap_eq_nil_iff.mpr fun role _ => ?_
      cases role <;> rfl
    rw [marks, hnone]
    rfl
  · by_cases hmistral : fmt = .mistral
    · subst hmistral
      exact mistralSlots_marks turns ""
    · have htemplate : template fmt turns = turns.flatMap (fun turn => turnSlots fmt turn.1 turn.2)
          ++ fmt.generationPieces.map Slot.ofPiece := by
        cases fmt <;> first | exact absurd rfl hplain | exact absurd rfl hmistral | rfl
      rw [htemplate, List.filter_append, hgen, marks, List.filter_flatMap, List.flatMap_map]
      simp only [turnSlots_marks hplain hmistral]

theorem count_turnMarks (fmt : ChatFormat) (role : Role) :
    (turnMarks fmt role).count .close = if closes fmt role then 1 else 0 := by
  cases fmt <;> cases role <;> rfl

/-- One end-of-turn id for each turn that the format closes. -/
theorem template_closed (fmt : ChatFormat) (turns : List (String × String)) :
    (template fmt turns).count .close =
      (turns.map fun turn => Role.of turn.1).countP (closes fmt) := by
  have hgen : (generationMarks fmt).count .close = 0 := by cases fmt <;> rfl
  rw [← List.count_filter (p := Slot.isMark) rfl, template_marks, marks, List.count_append, hgen,
    Nat.add_zero]
  generalize (turns.map fun turn => Role.of turn.1) = roles
  induction roles with
  | nil => rfl
  | cons role roles ih =>
    rw [List.flatMap_cons, List.count_append, count_turnMarks, ih, List.countP_cons, Nat.add_comm]

/-! ## Counting control ids -/

/-- The ids that a slot places. -/
def Slot.ids (tk : Tokenize) (fmt : ChatFormat) : Slot → List Token
  | text _ => []
  | marker m => (tk.tokenId m).toList
  | close => [fmt.turnEndId tk]

theorem ControlFree.countP {ids : List Token} (h : ControlFree isControl ids) :
    ids.countP isControl = 0 :=
  List.countP_eq_zero.mpr fun id hid => by rw [h id hid]; exact Bool.false_ne_true

theorem Fits.countP {slot : Slot} {ids : List Token} (h : Fits tk isControl bos fmt slot ids) :
    ids.countP isControl = (slot.ids tk fmt).countP isControl := by
  cases h with
  | text _ hfree => exact hfree.countP
  | marker hm => rw [Slot.ids, hm]; rfl
  | missing hm _ hfree => rw [hfree.countP, Slot.ids, hm]; rfl
  | close => rfl

theorem parts_countP {slots : List Slot} {parts : List (List Token)}
    (h : List.Forall₂ (Fits tk isControl bos fmt) slots parts) :
    parts.flatten.countP isControl = (slots.flatMap (Slot.ids tk fmt)).countP isControl := by
  induction h with
  | nil => rfl
  | cons hids _ ih =>
    rw [List.flatten_cons, List.countP_append, ih, hids.countP, List.flatMap_cons,
      List.countP_append]

/-- How many control ids the slots place can be read off the prompt. -/
theorem Filled.countP {slots : List Slot} {out : List Token}
    (h : Filled tk isControl bos fmt slots out) :
    (slots.flatMap (Slot.ids tk fmt)).countP isControl
      = out.countP isControl - if out = [] then 0 else bos.toList.countP isControl := by
  obtain ⟨blank, parts, hblank, hparts, hout⟩ := h
  rw [← parts_countP hparts]
  rcases hout with hout | ⟨rfl, hflat⟩
  · split
    next hnil =>
      rw [hnil] at hout
      have hflat := (List.append_eq_nil_iff.mp hout.symm).2
      rw [hnil, hflat]
      rfl
    · rw [hout, List.countP_append, List.countP_append, hblank.countP]
      omega
  · rw [hflat]
    rfl

theorem foreign_other {role : String} (h : Role.of role = .other) :
    foreign tk isControl role = (tk.tokenId s!"<|{role}|>").any isControl := by
  rw [foreign, decide_eq_true h, Bool.true_and]

theorem foreign_known {role : String} (h : Role.of role ≠ .other) :
    foreign tk isControl role = false := by
  rw [foreign, decide_eq_false h, Bool.false_and]

/-- Each role that spells a control id adds one. -/
theorem source_countP (turns : List (String × String)) :
    ((source .zephyr turns).flatMap (Slot.ids tk .zephyr)).countP isControl
      = ((template .zephyr turns).flatMap (Slot.ids tk .zephyr)).countP isControl
        + turns.countP fun turn => foreign tk isControl turn.1 := by
  simp only [source, template, List.flatMap_append, List.countP_append]
  induction turns with
  | nil => rfl
  | cons turn turns ih =>
    obtain ⟨role, content⟩ := turn
    have hone : ((sourceTurn .zephyr role content).flatMap (Slot.ids tk .zephyr)).countP isControl
        = ((turnSlots .zephyr role content).flatMap (Slot.ids tk .zephyr)).countP isControl
          + if foreign tk isControl role then 1 else 0 := by
      simp only [sourceTurn, turnSlots, opening, ChatFormat.prefixPieces, List.map_cons, List.map_nil,
        Slot.ofPiece, List.cons_append, List.nil_append, List.flatMap_cons, List.flatMap_nil,
        Slot.ids, List.append_nil, List.countP_append]
      by_cases hrole : Role.of role = .other
      · rw [if_pos hrole, foreign_other hrole]
        cases tk.tokenId s!"<|{role}|>" with
        | none => rfl
        | some id => simp [Nat.add_comm]
      · rw [if_neg hrole, foreign_known hrole]
        rfl
    rw [List.flatMap_cons, List.flatMap_cons, List.flatMap_append, List.flatMap_append,
      List.countP_append, List.countP_append, List.countP_cons]
    simp only at hone ⊢
    omega

/-! ## Only the template places control tokens -/

/-- A marker whose id is no control id fills a text slot. -/
theorem Fits.relax {m : String} {ids : List Token} (h : Fits tk isControl bos fmt (.marker m) ids)
    (hm : (tk.tokenId m).any isControl = false) : Fits tk isControl bos fmt (.text m) ids := by
  cases h with
  | marker hid =>
    rw [hid] at hm
    exact .text (.entry hid) fun id hmem => List.mem_singleton.mp hmem ▸ hm
  | missing _ hs hfree => exact .text hs hfree

theorem Filled.mono {slots slots' : List Slot} {out : List Token}
    (hslots : List.Forall₂ (fun slot slot' => ∀ ids, Fits tk isControl bos fmt slot ids →
      Fits tk isControl bos fmt slot' ids) slots slots')
    (h : Filled tk isControl bos fmt slots out) : Filled tk isControl bos fmt slots' out := by
  obtain ⟨blank, parts, hblank, hparts, hout⟩ := h
  refine ⟨blank, parts, hblank, ?_, hout⟩
  clear hout
  induction hslots generalizing parts with
  | nil => exact hparts
  | cons hslot _ ih =>
    cases hparts with
    | cons hids hrest => exact .cons (hslot _ hids) (ih _ hrest)

/-- Where no role spells a control id, the code's slots are the template's. -/
theorem source_template (turns : List (String × String))
    (h : ∀ turn ∈ turns, foreign tk isControl turn.1 = false) :
    List.Forall₂ (fun slot slot' => ∀ ids, Fits tk isControl bos .zephyr slot ids →
      Fits tk isControl bos .zephyr slot' ids) (source .zephyr turns) (template .zephyr turns) := by
  have hsame : ∀ slots : List Slot, List.Forall₂ (fun slot slot' => ∀ ids,
      Fits tk isControl bos .zephyr slot ids → Fits tk isControl bos .zephyr slot' ids)
      slots slots := fun slots => List.forall₂_same.mpr fun _ _ _ hids => hids
  refine List.rel_append ?_ (hsame _)
  induction turns with
  | nil => exact .nil
  | cons turn turns ih =>
    obtain ⟨role, content⟩ := turn
    have hforeign := h (role, content) List.mem_cons_self
    refine List.rel_append ?_ (ih fun turn hturn => h turn (List.mem_cons_of_mem _ hturn))
    refine .cons ?_ (hsame _)
    intro ids hids
    split
    next hrole =>
      rw [foreign_other hrole] at hforeign
      exact hids.relax hforeign
    · exact hids

/-- **Only the template places control tokens, exactly when no role spells one**: in every format
but Zephyr always, and in Zephyr when no role but the three known ones, put between `<|` and `|>`,
is a control token of the vocabulary. -/
theorem placed_iff (htk : TextOnly tk isControl bos) (fmt : ChatFormat)
    (turns : List (String × String)) :
    Placed tk isControl bos fmt turns ↔ Spares tk isControl fmt turns := by
  have hsource (hplain : fmt ≠ .plain) :
      Filled tk isControl bos fmt (source fmt turns) (encodeChat fmt tk turns) := by
    rw [encodeChat_eq hplain]
    exact emit_filled htk _
  constructor
  · rintro hplaced rfl turn hturn
    have hcode := (hsource (by decide)).countP
    rw [← hplaced.filled.countP, source_countP] at hcode
    have hzero := List.countP_eq_zero.mp (Nat.add_eq_left.mp hcode) turn hturn
    simpa using hzero
  · intro hspares
    refine ⟨?_, template_marks fmt turns, template_closed fmt turns⟩
    by_cases hplain : fmt = .plain
    · subst hplain
      obtain ⟨body, hbody, hfree⟩ := htk.encode (renderPlain turns)
      refine ⟨[], [body], fun id hid => absurd hid List.not_mem_nil,
        .cons (.text (.encode hbody) hfree) .nil, .inl ?_⟩
      unfold encodeChat
      rw [if_pos rfl, hbody]
      simp
    · by_cases hzephyr : fmt = .zephyr
      · subst hzephyr
        exact (hsource hplain).mono (source_template turns (hspares rfl))
      · have hsame : source fmt turns = template fmt turns := by
          cases fmt <;> first | exact absurd rfl hplain | exact absurd rfl hzephyr | rfl
        rw [← hsame]
        exact hsource hplain

/-- The stub of the chat tests: one id per byte of text, clear of the control ids. -/
def stub : Tokenize where
  encode text := 1 :: (utf8 text.toList).map fun b => 100 + b.toUInt32
  encodeFragment text := (utf8 text.toList).map fun b => 100 + b.toUInt32
  tokenId piece := [("<|im_end|>", 50), ("<|eot_id|>", 51), ("<|im_start|>", 52), ("<think>", 53),
    ("</think>", 54)].lookup piece
  decode tokens := .ok (String.ofList ((tokens.filter (100 ≤ ·)).map fun t =>
    Char.ofNat (t - 100).toUInt8.toNat))
  eos := 2
  vocabSize := 512

def stubControl (id : Token) : Bool := id < 100

theorem stub_textOnly : TextOnly stub stubControl (some 1) := by
  have hbyte : ∀ b : UInt8, stubControl (100 + b.toUInt32) = false := by
    intro b
    have hb := b.toNat_lt
    refine decide_eq_false ?_
    rw [UInt32.lt_iff_toNat_lt, UInt32.toNat_add, UInt8.toNat_toUInt32]
    simp only [UInt32.reduceToNat]
    omega
  have hfragment : ∀ s, ControlFree stubControl (stub.encodeFragment s) := by
    intro s id hid
    obtain ⟨b, -, rfl⟩ := List.mem_map.mp hid
    exact hbyte b
  exact ⟨fun s => ⟨_, rfl, hfragment s⟩, hfragment⟩

theorem placed_iff_stub :
    Placed stub stubControl (some 1) .zephyr [("user", "hi"), ("tool", "42")] :=
  (placed_iff stub_textOnly _ _).mpr fun _ => by decide

/-- A message of the role `im_end` puts the end-of-turn token of that name into its prompt. -/
theorem role_places_control : TextOnly stub stubControl (some 1) ∧
    (encodeChat .zephyr stub [("im_end", "hi")]).count 50 = 1 ∧ stubControl 50 = true ∧
    ¬ Placed stub stubControl (some 1) .zephyr [("im_end", "hi")] := by
  refine ⟨stub_textOnly, by decide +kernel, by decide, fun hplaced => ?_⟩
  have hcount := hplaced.filled.countP
  revert hcount
  decide +kernel

end Garuda.Chat
