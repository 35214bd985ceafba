import Mathlib.Data.List.Basic

/-!
# First-in first-out histories

Each event of a history lets an element enter a queue, takes its front element, flushes it or
leaves it alone.

* `content`, `entered`, `taken`, `flushed`: what is in the queue, has come in, and has gone;
* **`count_entered`**: an element that came in is in the queue, was taken or was flushed;
* **`taken_sublist_entered`**: elements are taken in the order in which they came.
-/

namespace Fifo

variable {ε α : Type*}

/-- What an event does to a queue. -/
inductive Op (α : Type*) where
  | enter (a : α)
  | take
  | flush
  | keep

namespace Op

def apply : Op α → List α → List α
  | enter a, c => c ++ [a]
  | take, c => c.tail
  | flush, _ => []
  | keep, c => c

/-- What comes in. -/
def enters : Op α → List α
  | enter a => [a]
  | take | flush | keep => []

/-- What is taken from a queue. -/
def takes : Op α → List α → List α
  | take, c => c.take 1
  | enter _, _ | flush, _ | keep, _ => []

/-- What is flushed from a queue. -/
def flushes : Op α → List α → List α
  | flush, c => c
  | enter _, _ | take, _ | keep, _ => []

/-- Nothing gets lost or reordered in one event. -/
theorem takes_append_apply (op : Op α) (c : List α) :
    op.takes c ++ op.flushes c ++ op.apply c = c ++ op.enters := by
  cases op with
  | enter a => simp [takes, flushes, apply, enters]
  | take =>
    cases c with
    | nil => rfl
    | cons a c => simp [takes, flushes, apply, enters]
  | flush => simp [takes, flushes, apply, enters]
  | keep => simp [takes, flushes, apply, enters]

end Op

/-! ## Histories -/

section Histories

variable (w : ε → Op α)

/-- The content of the queue after a history, oldest event first. -/
def content (h : List ε) : List α := h.foldl (fun c e => (w e).apply c) []

def entered (h : List ε) : List α := h.flatMap fun e => (w e).enters

/-- What `f` lets go of in the events of `h`, when the queue holds `c` before them. -/
def goneFrom (f : Op α → List α → List α) : List α → List ε → List α
  | _, [] => []
  | c, e :: h => f (w e) c ++ goneFrom f ((w e).apply c) h

def taken (h : List ε) : List α := goneFrom w Op.takes [] h

def flushed (h : List ε) : List α := goneFrom w Op.flushes [] h

variable {w}

@[simp] theorem content_nil : content w [] = [] := rfl

@[simp] theorem content_snoc (h : List ε) (e : ε) :
    content w (h ++ [e]) = (w e).apply (content w h) := by
  simp [content]

@[simp] theorem entered_snoc (h : List ε) (e : ε) :
    entered w (h ++ [e]) = entered w h ++ (w e).enters := by
  simp [entered]

theorem goneFrom_snoc (f : Op α → List α → List α) (h : List ε) (e : ε) : ∀ c,
    goneFrom w f c (h ++ [e]) =
      goneFrom w f c h ++ f (w e) (h.foldl (fun c e => (w e).apply c) c) := by
  induction h with
  | nil => intro c; simp [goneFrom]
  | cons e' h ih => intro c; simp [goneFrom, ih]

@[simp] theorem taken_snoc (h : List ε) (e : ε) :
    taken w (h ++ [e]) = taken w h ++ (w e).takes (content w h) :=
  goneFrom_snoc _ h e []

@[simp] theorem flushed_snoc (h : List ε) (e : ε) :
    flushed w (h ++ [e]) = flushed w h ++ (w e).flushes (content w h) :=
  goneFrom_snoc _ h e []

/-- What has gone, followed by what is left, is what has come in. -/
theorem gone_append_content (h : List ε) : ∀ c,
    goneFrom w (fun op c => op.takes c ++ op.flushes c) c h ++
      h.foldl (fun c e => (w e).apply c) c = c ++ entered w h := by
  induction h with
  | nil => intro c; simp [goneFrom, entered]
  | cons e h ih =>
    intro c
    have hs := (w e).takes_append_apply c
    calc goneFrom w (fun op c => op.takes c ++ op.flushes c) c (e :: h) ++
          (e :: h).foldl (fun c e => (w e).apply c) c
        = (w e).takes c ++ (w e).flushes c ++ ((w e).apply c ++ entered w h) := by
          rw [goneFrom, List.foldl_cons, List.append_assoc, ih]
      _ = c ++ (w e).enters ++ entered w h := by rw [← List.append_assoc, hs]
      _ = c ++ entered w (e :: h) := by
          rw [List.append_assoc, entered, entered, List.flatMap_cons]

theorem goneFrom_sublist {f g : Op α → List α → List α} (hfg : ∀ op c, (f op c).Sublist (g op c))
    (h : List ε) : ∀ c, (goneFrom w f c h).Sublist (goneFrom w g c h) := by
  induction h with
  | nil => intro c; exact List.Sublist.refl _
  | cons e h ih => intro c; exact (hfg (w e) c).append (ih _)

/-- **Elements are taken in the order in which they came.** -/
theorem taken_sublist_entered (h : List ε) : (taken w h).Sublist (entered w h) := by
  have hgone := gone_append_content (w := w) h []
  rw [List.nil_append] at hgone
  rw [← hgone]
  exact (goneFrom_sublist (fun op c => List.sublist_append_left _ _) h []).trans
    (List.sublist_append_left _ _)

/-- **Every element that came in is in the queue, was taken or was flushed.** -/
theorem count_entered [DecidableEq α] (h : List ε) (a : α) : (entered w h).count a =
    (content w h).count a + (taken w h).count a + (flushed w h).count a := by
  have hsplit : ∀ c, (goneFrom w (fun op c => op.takes c ++ op.flushes c) c h).count a =
      (goneFrom w Op.takes c h).count a + (goneFrom w Op.flushes c h).count a := by
    induction h with
    | nil => intro c; rfl
    | cons e h ih =>
      intro c
      simp only [goneFrom, List.count_append, ih]
      omega
  have hgone := congrArg (List.count a) (gone_append_content (w := w) h [])
  rw [List.count_append, hsplit, List.nil_append] at hgone
  rw [taken, flushed, content]
  omega

end Histories

end Fifo
