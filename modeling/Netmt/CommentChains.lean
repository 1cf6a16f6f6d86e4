import Netmt.IniConf

/-!
# Chains of comments

The nodes of `CComment` and the loop of `CComment::find`, in which the pointer moves
and the string that is compared does not. A node deletes the node behind it, so
that each has one owner and a chain is a tree without branches.
-/
namespace NetmtCommentChains

open NetmtIniConf

theorem newComment_head (comment : List UInt8) : (newComment comment).head? = some 35 := by
  rw [newComment]
  split
  · assumption
  · rfl

/-- What the constructor leaves in `m_strComment`. -/
structure Stored where
  text : List UInt8
  hash : text.head? = some 35
  deriving DecidableEq

def stored (comment : List UInt8) : Stored := ⟨newComment comment, newComment_head comment⟩

inductive CComment where
  /-- `m_pNext` is null. -/
  | last (m_strComment : Stored)
  | node (m_strComment : Stored) (m_pNext : CComment)
  deriving DecidableEq

namespace CComment

def m_strComment : CComment → List UInt8
  | last s => s.text
  | node s _ => s.text

/-- The strings of a chain from its first node on. -/
def texts : CComment → List (List UInt8)
  | last s => [s.text]
  | node s next => s.text :: next.texts

/-- The strings behind the first. -/
def later : CComment → List (List UInt8)
  | last _ => []
  | node _ next => next.texts

@[simp] theorem texts_last (s : Stored) : (last s).texts = [s.text] := rfl
@[simp] theorem texts_node (s : Stored) (next : CComment) :
    (node s next).texts = s.text :: next.texts := rfl

theorem texts_eq (c : CComment) : c.texts = c.m_strComment :: c.later := by
  cases c <;> rfl

/-- The loop of `find`: `p` moves on, `this` stays. -/
def findLoop (this comment : List UInt8) : CComment → Bool
  | last _ => if this = comment then true else false
  | node _ next => if this = comment then true else findLoop this comment next

def find (comment : List UInt8) (c : CComment) : Bool := findLoop c.m_strComment comment c

/-- `Push(const char *)` -/
def push (comment : List UInt8) : CComment → CComment
  | last s => if (last s).find comment then last s else node s (last (stored comment))
  | node s next => if (node s next).find comment then node s next else node s (next.push comment)

/-- `Push(CComment *)`: all of the other chain or nothing of it. -/
def pushOwned : CComment → CComment → CComment
  | last s, comment => if (last s).find comment.m_strComment then last s else node s comment
  | node s next, comment =>
    if (node s next).find comment.m_strComment then node s next
    else node s (next.pushOwned comment)

/-- `Push(CComment *)`, which reads `m_strComment` of a null pointer too. -/
def pushChain (comment : Option CComment) (c : CComment) : Option CComment :=
  comment.map fun comment => c.pushOwned comment

end CComment

open CComment

/-- The strings of a chain that may be null. -/
def chainTexts : Option CComment → List (List UInt8)
  | none => []
  | some c => c.texts

@[simp] theorem chainTexts_none : chainTexts none = [] := rfl
@[simp] theorem chainTexts_some (c : CComment) : chainTexts (some c) = c.texts := rfl

/-- `CRecord::SetComment(const char *)` and `CSection::SetComment(const char *)`. -/
def setCommentText (comment : Option (List UInt8)) (chain : Option CComment) : Option CComment :=
  match comment with
  | none => chain
  | some comment =>
    match chain with
    | none => some (last (stored comment))
    | some c => if c.find comment then some c else some (c.pushOwned (last (stored comment)))

/-- `CRecord::SetComment(CComment *&)` -/
def setRecordComment (comment chain : Option CComment) : Option (Option CComment) :=
  match comment with
  | none => some chain
  | some _ =>
    match chain with
    | none => some comment
    | some c => (c.pushChain comment).map some

/-- `CSection::SetComment(CComment *&)` -/
def setSectionComment (comment chain : Option CComment) : Option (Option CComment) :=
  match chain with
  | none => some comment
  | some c => (c.pushChain comment).map some

/-! ## What the operations do to the strings -/

theorem findLoop_eq (this comment : List UInt8) (c : CComment) :
    findLoop this comment c = decide (this = comment) := by
  induction c with
  | last s => by_cases h : this = comment <;> simp [findLoop, h]
  | node s next ih =>
    rw [findLoop, ih]
    by_cases h : this = comment <;> simp [h]

/-- The loop never looks behind the first node. -/
theorem find_iff (comment : List UInt8) (c : CComment) :
    c.find comment = true ↔ comment = c.m_strComment := by
  rw [find, findLoop_eq, decide_eq_true_iff]
  exact eq_comm

@[simp] theorem find_last (comment : List UInt8) (s : Stored) :
    (last s).find comment = true ↔ comment = s.text := find_iff comment (last s)

@[simp] theorem find_node (comment : List UInt8) (s : Stored) (next : CComment) :
    (node s next).find comment = true ↔ comment = s.text := find_iff comment (node s next)

/-- Each node of the recursion looks at itself, and so `Push` sees the whole chain. -/
theorem push_texts (comment : List UInt8) (c : CComment) :
    (c.push comment).texts = pushText c.texts comment := by
  induction c with
  | last s =>
    simp only [push, find_last]
    by_cases h : comment = s.text <;> simp [pushText, stored, h]
  | node s next ih =>
    simp only [push, find_node]
    by_cases h : comment = s.text
    · simp [pushText, h]
    · rw [if_neg h, texts_node, ih, pushText, pushText]
      by_cases hnext : comment ∈ next.texts <;> simp [h, hnext]

theorem pushOwned_texts (c comment : CComment) :
    (c.pushOwned comment).texts =
      if comment.m_strComment ∈ c.texts then c.texts else c.texts ++ comment.texts := by
  induction c with
  | last s =>
    simp only [pushOwned, find_last]
    by_cases h : comment.m_strComment = s.text <;> simp [h]
  | node s next ih =>
    simp only [pushOwned, find_node]
    by_cases h : comment.m_strComment = s.text
    · simp [h]
    · rw [if_neg h, texts_node, ih]
      by_cases hnext : comment.m_strComment ∈ next.texts <;> simp [h, hnext]

/-- The chains of the configuration are the strings of these. -/
theorem pushChain_texts (comment : Option CComment) (c : CComment) :
    (c.pushChain comment).map texts = NetmtIniConf.pushChain c.texts (chainTexts comment) := by
  cases comment with
  | none => rfl
  | some comment =>
    simp only [CComment.pushChain, Option.map_some, pushOwned_texts]
    rw [chainTexts_some, texts_eq comment, NetmtIniConf.pushChain]

theorem setSectionComment_texts (comment chain : Option CComment) (s : CSection)
    (hchain : s.comment = chainTexts chain) :
    (setSectionComment comment chain).map chainTexts =
      (s.setComment (chainTexts comment)).map CSection.comment := by
  cases chain with
  | none =>
    have hnull : s.comment = [] := hchain
    simp [setSectionComment, CSection.setComment, hnull]
  | some c =>
    have hne : s.comment ≠ [] := by
      rw [hchain, chainTexts_some, texts_eq]
      exact List.cons_ne_nil _ _
    rw [CSection.setComment, if_neg hne, hchain, chainTexts_some, ← pushChain_texts,
      setSectionComment]
    cases c.pushChain comment <;> rfl

theorem setRecordComment_texts (comment chain : Option CComment) (r : CRecord)
    (hchain : r.comment = chainTexts chain) :
    (setRecordComment comment chain).map chainTexts =
      some (r.setComment (chainTexts comment)).comment := by
  cases comment with
  | none => simp [setRecordComment, CRecord.setComment, hchain]
  | some b =>
    have hb : chainTexts (some b) ≠ [] := by
      rw [chainTexts_some, texts_eq]
      exact List.cons_ne_nil _ _
    rw [CRecord.setComment, if_neg hb]
    cases chain with
    | none =>
      have hnull : r.comment = [] := hchain
      simp [setRecordComment, hnull]
    | some c =>
      have hne : r.comment ≠ [] := by
        rw [hchain, chainTexts_some, texts_eq]
        exact List.cons_ne_nil _ _
      rw [if_neg hne, hchain, chainTexts_some, ← pushChain_texts, setRecordComment]
      rfl

/-- Every string of a chain is behind a `#`, so that another is in none. -/
theorem texts_hash {c : CComment} {comment : List UInt8} (hmem : comment ∈ c.texts) :
    comment.head? = some 35 := by
  induction c with
  | last s =>
    rw [texts_last, List.mem_singleton] at hmem
    exact hmem ▸ s.hash
  | node s next ih =>
    rw [texts_node, List.mem_cons] at hmem
    obtain rfl | hnext := hmem
    · exact s.hash
    · exact ih hnext

/-- `SetComment` makes the node first, and so never stores a string twice. -/
theorem setCommentText_texts (comment : List UInt8) (chain : Option CComment) :
    chainTexts (setCommentText (some comment) chain) =
      if newComment comment ∈ chainTexts chain then chainTexts chain
      else chainTexts chain ++ [newComment comment] := by
  cases chain with
  | none => rfl
  | some c =>
    by_cases hfirst : comment = c.m_strComment
    · have hmem : comment ∈ chainTexts (some c) := by
        rw [chainTexts_some, texts_eq, hfirst]
        exact List.mem_cons_self
      have hsame : newComment comment = comment := by rw [newComment, if_pos (texts_hash hmem)]
      have hset : setCommentText (some comment) (some c) = some c :=
        if_pos ((find_iff comment c).mpr hfirst)
      rw [hset, hsame, if_pos hmem]
    · have hset : setCommentText (some comment) (some c) =
          some (c.pushOwned (last (stored comment))) :=
        if_neg fun hfind => hfirst ((find_iff comment c).mp hfind)
      rw [hset, chainTexts_some, pushOwned_texts]
      rfl

/-! ## Merging -/

/-- `c` is `a` and then what `b` has more, each string once. -/
def Merged (a b c : List (List UInt8)) : Prop :=
  ∃ rest, c = a ++ rest ∧ rest.Nodup ∧ ∀ comment, comment ∈ rest ↔ comment ∈ b ∧ comment ∉ a

theorem merged_self_iff {a b : List (List UInt8)} : Merged a b a ↔ ∀ comment ∈ b, comment ∈ a := by
  constructor
  · rintro ⟨rest, hrest, _, hmem⟩ comment hb
    have hnil : rest = [] := List.append_right_eq_self.mp hrest.symm
    by_contra ha
    have hin : comment ∈ rest := (hmem comment).mpr ⟨hb, ha⟩
    rw [hnil] at hin
    exact List.not_mem_nil hin
  · intro hall
    refine ⟨[], (List.append_nil a).symm, List.nodup_nil, fun comment => ?_⟩
    constructor
    · exact fun hnil => absurd hnil List.not_mem_nil
    · exact fun hb => absurd (hall comment hb.1) hb.2

theorem merged_append_iff {a b : List (List UInt8)} :
    Merged a b (a ++ b) ↔ b.Nodup ∧ ∀ comment ∈ b, comment ∉ a := by
  constructor
  · rintro ⟨rest, hrest, hnodup, hmem⟩
    obtain rfl : b = rest := List.append_cancel_left hrest
    exact ⟨hnodup, fun comment hb => ((hmem comment).mp hb).2⟩
  · rintro ⟨hnodup, hnew⟩
    exact ⟨b, rfl, hnodup, fun comment => ⟨fun hb => ⟨hb, hnew comment hb⟩, And.left⟩⟩

theorem pushChain_merged_iff (a : CComment) (b : Option CComment) :
    (∃ c, a.pushChain b = some c ∧ Merged a.texts (chainTexts b) c.texts) ↔
      ∃ first, b = some first ∧
        ((first.m_strComment ∈ a.texts ∧ ∀ comment ∈ first.later, comment ∈ a.texts) ∨
          (first.texts.Nodup ∧ ∀ comment ∈ first.texts, comment ∉ a.texts)) := by
  cases b with
  | none => simp [CComment.pushChain]
  | some first =>
    simp only [CComment.pushChain, Option.map_some, Option.some.injEq, exists_eq_left',
      chainTexts_some, pushOwned_texts]
    by_cases hfirst : first.m_strComment ∈ a.texts
    · rw [if_pos hfirst, merged_self_iff, texts_eq first]
      simp [hfirst]
    · rw [if_neg hfirst, merged_append_iff]
      simp [hfirst]

theorem find_right_iff (a : CComment) (comment : List UInt8) :
    (a.find comment = true ↔ comment ∈ a.texts) ↔
      (comment ∈ a.later → comment = a.m_strComment) := by
  rw [find_iff, texts_eq, List.mem_cons]
  tauto

theorem push_right_iff (a : CComment) (comment : List UInt8) :
    ((a.push comment).texts.length = a.texts.length + 1 ↔ newComment comment ∉ a.texts) ↔
      (comment.head? = some 35 ∨ 35 :: comment ∉ a.texts) := by
  rw [push_texts, pushText]
  by_cases hhash : comment.head? = some 35
  · by_cases hmem : comment ∈ a.texts <;> simp [newComment, hhash, hmem]
  · have hnew : comment ∉ a.texts := fun hmem => hhash (texts_hash hmem)
    simp [newComment, hhash, hnew]

/-- Chains merge as they should where the first string of the other chain speaks for
all of it, `find` is right but for a string that only a later node has, and `Push`
but for a string that is there already behind its `#`. -/
theorem comments_merged_iff (a : CComment) (b : Option CComment) (comment : List UInt8) :
    ((∃ c, a.pushChain b = some c ∧ Merged a.texts (chainTexts b) c.texts) ↔
      ∃ first, b = some first ∧
        ((first.m_strComment ∈ a.texts ∧ ∀ t ∈ first.later, t ∈ a.texts) ∨
          (first.texts.Nodup ∧ ∀ t ∈ first.texts, t ∉ a.texts))) ∧
    ((a.find comment = true ↔ comment ∈ a.texts) ↔
      (comment ∈ a.later → comment = a.m_strComment)) ∧
    (((a.push comment).texts.length = a.texts.length + 1 ↔ newComment comment ∉ a.texts) ↔
      (comment.head? = some 35 ∨ 35 :: comment ∉ a.texts)) :=
  ⟨pushChain_merged_iff a b, find_right_iff a comment, push_right_iff a comment⟩

/-- `#a` and `#a`, `#b`: the `#b` is lost, the chain of both does not find `#b`, and `a`
comes behind its own `#a`. -/
theorem comment_lost :
    (let a := last (stored [35, 97])
     let b := node (stored [35, 97]) (last (stored [35, 98]))
     (∃ c, a.pushChain (some b) = some c ∧ c.texts = [[35, 97]] ∧
        ¬ Merged a.texts (chainTexts (some b)) c.texts) ∧
      [35, 98] ∈ b.texts ∧ b.find [35, 98] = false ∧
      newComment [97] ∈ a.texts ∧ (a.push [97]).texts = [[35, 97], [35, 97]]) := by
  refine ⟨⟨last (stored [35, 97]), by decide, by decide, ?_⟩, by decide, by decide, by decide,
    by decide⟩
  rintro ⟨rest, hrest, _, hmem⟩
  have hnil : rest = [] := List.append_right_eq_self.mp hrest.symm
  have hin : ([35, 98] : List UInt8) ∈ rest := (hmem [35, 98]).mpr ⟨by decide, by decide⟩
  rw [hnil] at hin
  exact List.not_mem_nil hin

/-- `#a`, `[s]`, `#a`, `#b`, `[s]`: the section keeps the first comment only. -/
example : ((readFromFile (List.replicate 256 0)
      [35, 97, 10, 91, 115, 93, 10, 35, 97, 10, 35, 98, 10, 91, 115, 93, 10]).map
    fun c => c.sections.map CSection.comment) = some [[[35, 97]]] := by
  decide

end NetmtCommentChains
