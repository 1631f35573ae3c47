import Capka.Tree.Forks

/-!
# Copies of a path

A fork or a clone of a path is a chain of fresh rows, one for each row of the path and in its order, that carries what the rows carry and is
what the new chat shows.
-/

namespace Capka.Conversation

open PathAux

/-- What a copy keeps of its row, and what it leaves behind. -/
structure CopyOf (src dst : ChatMessage) : Prop where
  role : dst.role = src.role
  parts : dst.metadata.parts = src.metadata.parts
  mark : dst.untrustedIngress = src.untrustedIngress
  content : dst.content = messageText src
  settled : dst.metadata.status ≠ some .running
  taskless : dst.metadata.taskId = none

/-- A path a chat shows, as whole rows. -/
structure PathOf (db : Db) (chatId : ChatId) (activeLeafId : Option MessageId) (path : List ChatMessage) : Prop where
  rows : ∀ r ∈ path, r ∈ db.messages ∧ r.chatId = chatId
  path : path.map ChatMessage.toTreeRow = (activePath (loadSkeleton db chatId) activeLeafId).map PathEntry.node

/-- The database with one chat more, whose rows are copies of a path, linked in its order, and which shows them. -/
structure Copied (db db' : Db) (path copies : List ChatMessage) (chat : ChatRow) : Prop where
  chats : db'.chats.rows = db.chats.rows ++ [chat]
  messages : db'.messages.rows = db.messages.rows ++ copies
  inChat : ∀ r ∈ db'.messages, r.chatId = chat.id ↔ r ∈ copies
  copyOf : List.Forall₂ CopyOf path copies
  linked : copies.IsChain fun above below => below.parentId = some above.id
  leaf : chat.activeLeafId = copies.getLast?.map fun r => r.id
  shown : (activePath (loadSkeleton db' chat.id) chat.activeLeafId).map PathEntry.node = copies.map ChatMessage.toTreeRow

namespace CopyAux

/-! ### The rows of a path -/

variable {db : Db} {chatId : ChatId}

theorem mem_loadSkeleton {t : TreeRow} : t ∈ loadSkeleton db chatId ↔ ∃ r ∈ db.messages, r.chatId = chatId ∧ r.toTreeRow = t := by
  change t ∈ (db.messages.rows.filter fun r => r.chatId = chatId).map ChatMessage.toTreeRow ↔ _
  simp [Table.mem_rows, and_assoc]

theorem find?_full {ids : List MessageId} {r : ChatMessage} (hr : r ∈ db.messages) (hchat : r.chatId = chatId) (hid : r.id ∈ ids) :
    (db.messages.rows.filter fun r => r.chatId = chatId ∧ r.id ∈ ids).find? (·.id = r.id) = some r := by
  have hmem : r ∈ db.messages.rows.filter fun r => r.chatId = chatId ∧ r.id ∈ ids := by
    simpa using ⟨hr, hchat, hid⟩
  cases hs : (db.messages.rows.filter fun r => r.chatId = chatId ∧ r.id ∈ ids).find? (·.id = r.id) with
  | none => exact absurd (decide_eq_true rfl) (List.find?_eq_none.mp hs r hmem)
  | some s =>
  have hkey : s.id = r.id := by simpa using List.find?_some hs
  have hsmem : s ∈ db.messages := (List.mem_filter.mp (List.mem_of_find?_eq_some hs)).1
  rw [Table.eq_of_key hsmem hr hkey]

theorem pathOf_pathRows (activeLeafId : Option MessageId) :
    PathOf db chatId activeLeafId (pathRows db chatId ((activePath (loadSkeleton db chatId) activeLeafId).map (·.node.id))) := by
  constructor
  · intro r hr
    obtain ⟨id, -, hfind⟩ := List.mem_filterMap.mp hr
    obtain ⟨hmem, hchat⟩ := List.mem_filter.mp (List.mem_of_find?_eq_some hfind)
    exact ⟨hmem, (of_decide_eq_true hchat).1⟩
  · have hrows := (isPath_activePath (loadSkeleton db chatId) activeLeafId).rows
    rw [pathRows, List.map_filterMap, List.filterMap_map]
    conv_rhs => rw [← List.filterMap_eq_map]
    refine List.filterMap_congr fun e he => ?_
    obtain ⟨r, hr, hchat, hnode⟩ := mem_loadSkeleton.mp (hrows e he)
    have hid : r.id = e.node.id := congrArg TreeRow.id hnode
    have hmem : r.id ∈ (activePath (loadSkeleton db chatId) activeLeafId).map (·.node.id) := List.mem_map.mpr ⟨e, he, hid.symm⟩
    have hfind := find?_full hr hchat hmem
    rw [hid] at hfind
    rw [Function.comp_apply, hfind, Option.map_some, hnode]
    rfl

theorem nodup_of_pathOf {activeLeafId : Option MessageId} {path : List ChatMessage} (h : PathOf db chatId activeLeafId path) :
    (path.map fun r => r.id).Nodup := by
  have heq : path.map (fun r => r.id) = (activePath (loadSkeleton db chatId) activeLeafId).map (·.node.id) := by
    have hids := congrArg (List.map TreeRow.id) h.path
    rw [List.map_map, List.map_map] at hids
    exact hids
  rw [heq]
  exact nodup_activePath

theorem linked_of_pathOf {activeLeafId : Option MessageId} {path : List ChatMessage} (h : PathOf db chatId activeLeafId path) :
    path.IsChain fun above below => below.parentId = some above.id := by
  have hlinked := (isPath_activePath (loadSkeleton db chatId) activeLeafId).linked
  have hnodes : ((activePath (loadSkeleton db chatId) activeLeafId).map PathEntry.node).IsChain
      fun above below => below.parentId = some above.id := (List.isChain_map _).mpr hlinked
  rw [← h.path, List.isChain_map] at hnodes
  exact hnodes

/-! ### The copies -/

variable {nanoid : Nat → {id : List Nat // id ≠ []}} {now : Int}

theorem copyOf_forkedMessageRow (node : ChatMessage) (id : {id : MessageId // id ≠ []}) (parentId : Option MessageId) :
    CopyOf node (forkedMessageRow now node id chatId parentId) := by
  have hmeta : (sanitizeForkedMeta node.metadata).parts = node.metadata.parts ∧
      (sanitizeForkedMeta node.metadata).status ≠ some .running ∧ (sanitizeForkedMeta node.metadata).taskId = none := by
    cases node.metadata with
    | other _ => exact ⟨rfl, by simp [sanitizeForkedMeta, Metadata.status], rfl⟩
    | object m =>
      refine ⟨rfl, ?_, rfl⟩
      simp only [sanitizeForkedMeta, Metadata.status]
      split
      · simp
      · assumption
  exact ⟨rfl, hmeta.1, rfl, rfl, hmeta.2.1, hmeta.2.2⟩

theorem forall₂_copyRows (path : List ChatMessage) : ∀ (n : Nat) (idMap : MessageId → Option MessageId),
    List.Forall₂ CopyOf path (copyRows nanoid now chatId n idMap path) := by
  induction path with
  | nil => exact fun _ _ => .nil
  | cons node nodes ih => exact fun n idMap => .cons (copyOf_forkedMessageRow _ _ _) (ih _ _)

theorem mem_copyRows (path : List ChatMessage) : ∀ (n : Nat) (idMap : MessageId → Option MessageId),
    ∀ r ∈ copyRows nanoid now chatId n idMap path, r.chatId = chatId ∧ ∃ k, n ≤ k ∧ r.id = (nanoid k).1 := by
  induction path with
  | nil => simp [copyRows]
  | cons node nodes ih =>
    intro n idMap
    rw [copyRows]
    refine List.forall_mem_cons.mpr ⟨⟨rfl, n, le_rfl, rfl⟩, fun r hr => ?_⟩
    obtain ⟨hchat, k, hk, hid⟩ := ih _ _ r hr
    exact ⟨hchat, k, by omega, hid⟩

theorem nodup_copyRows (hinj : Function.Injective nanoid) (path : List ChatMessage) : ∀ (n : Nat) (idMap : MessageId → Option MessageId),
    ((copyRows nanoid now chatId n idMap path).map fun r => r.id).Nodup := by
  induction path with
  | nil => simp [copyRows]
  | cons node nodes ih =>
    intro n idMap
    rw [copyRows, List.map_cons, List.nodup_cons]
    refine ⟨fun hmem => ?_, ih _ _⟩
    obtain ⟨r, hr, hid⟩ := List.mem_map.mp hmem
    obtain ⟨-, k, hk, hrk⟩ := mem_copyRows nodes _ _ r hr
    have heq : k = n := hinj (Subtype.ext (hrk.symm.trans hid))
    omega

theorem linked_copyRows (path : List ChatMessage) : ∀ (n : Nat) (idMap : MessageId → Option MessageId), (path.map fun r => r.id).Nodup →
    path.IsChain (fun above below => below.parentId = some above.id) →
      (copyRows nanoid now chatId n idMap path).IsChain fun above below => below.parentId = some above.id := by
  induction path with
  | nil => exact fun _ _ _ _ => .nil
  | cons node nodes ih =>
    intro n idMap hnodup hchain
    cases nodes with
    | nil => exact .singleton _
    | cons next nodes =>
      obtain ⟨hparent, hchain⟩ := List.isChain_cons_cons.mp hchain
      obtain ⟨hnew, hnodup⟩ := List.nodup_cons.mp hnodup
      have htail := ih (n + 1) (Function.update idMap node.id (some (nanoid n).1)) hnodup hchain
      rw [copyRows] at htail ⊢
      refine .cons_cons ?_ htail
      have hne : node.id ≠ next.id := fun heq => hnew (List.mem_map.mpr ⟨next, List.mem_cons_self, heq.symm⟩)
      simp only [forkedMessageRow, hparent, Option.bind_some, if_neg node.named, Function.update_of_ne hne, Function.update_self]

theorem top_copyRows (path : List ChatMessage) (n : Nat) :
    ∀ r ∈ (copyRows nanoid now chatId n (fun _ => none) path).head?, r.parentId = none ∨ r.parentId = some r.id := by
  cases path with
  | nil => simp [copyRows]
  | cons node nodes =>
    intro r hr
    rw [copyRows, List.head?_cons, Option.mem_some_iff] at hr
    subst hr
    simp only [forkedMessageRow]
    cases hparent : node.parentId with
    | none => simp
    | some id =>
      rw [Option.bind_some]
      split
      · simp
      · by_cases hself : id = node.id
        · simp [hself]
        · simp [hself]

/-! ### The writes -/

theorem insertRows_of_fresh {rows : List ChatMessage} (hnodup : ((db.messages.rows ++ rows).map fun r => r.id).Nodup)
    (hchat : ∀ r ∈ rows, r.chatId ∈ db.chats.keys) (hsize : messageColumns * rows.length ≤ maxParams) :
    ∃ db', insertRows rows db = some db' ∧ db'.chats = db.chats ∧ db'.messages.rows = db.messages.rows ++ rows := by
  rw [insertRows, dif_pos ⟨hnodup, hchat, hsize⟩]
  exact ⟨_, rfl, rfl, rfl⟩

theorem insertChunks_of_fresh {size : Nat} (hpos : 0 < size) (hsize : messageColumns * size ≤ maxParams) (fuel : Nat) :
    ∀ (rows : List ChatMessage) (db : Db), rows.length ≤ fuel → ((db.messages.rows ++ rows).map fun r => r.id).Nodup →
      (∀ r ∈ rows, r.chatId ∈ db.chats.keys) →
        ∃ db', insertChunks size fuel rows db = some db' ∧ db'.chats = db.chats ∧ db'.messages.rows = db.messages.rows ++ rows := by
  induction fuel with
  | zero =>
    intro rows db hfuel _ _
    rw [List.length_eq_zero_iff.mp (Nat.le_zero.mp hfuel)]
    exact ⟨db, rfl, rfl, by simp⟩
  | succ fuel ih =>
    intro rows db hfuel hnodup hchat
    rw [insertChunks]
    split
    · rename_i hnil
      exact ⟨db, rfl, rfl, by simp [hnil]⟩
    · rename_i hne
      have hlen : 0 < rows.length := List.length_pos_iff.mpr hne
      have hsplit : db.messages.rows ++ rows = (db.messages.rows ++ rows.take size) ++ rows.drop size := by
        rw [List.append_assoc, List.take_append_drop]
      have hfirst : ((db.messages.rows ++ rows.take size).map fun r => r.id).Nodup := by
        rw [hsplit, List.map_append] at hnodup
        exact (List.nodup_append.mp hnodup).1
      have hparams : messageColumns * (rows.take size).length ≤ maxParams :=
        (Nat.mul_le_mul_left _ (List.length_take_le _ _)).trans hsize
      obtain ⟨mid, hmid, hchats, hrows⟩ := insertRows_of_fresh hfirst (fun r hr => hchat r (List.mem_of_mem_take hr)) hparams
      obtain ⟨db', hdb', hchats', hrows'⟩ := ih (rows.drop size) mid (by rw [List.length_drop]; omega) (by rwa [hrows, ← hsplit])
        (fun r hr => by
          rw [hchats]
          exact hchat r (List.mem_of_mem_drop hr))
      refine ⟨db', by rw [hmid, Option.bind_some, hdb'], hchats'.trans hchats, ?_⟩
      rw [hrows', hrows, hsplit]

theorem insertMessageChunks_of_fresh {rows : List ChatMessage} (hnodup : ((db.messages.rows ++ rows).map fun r => r.id).Nodup)
    (hchat : ∀ r ∈ rows, r.chatId ∈ db.chats.keys) :
    ∃ db', insertMessageChunks rows db = some db' ∧ db'.chats = db.chats ∧ db'.messages.rows = db.messages.rows ++ rows :=
  insertChunks_of_fresh (by decide) (by decide) _ rows db le_rfl hnodup hchat

theorem insertChat_of_fresh {chat : ChatRow} (hfresh : chat.id ∉ db.chats.keys) :
    ∃ db', insertChat chat db = some db' ∧ db'.chats.rows = db.chats.rows ++ [chat] ∧ db'.messages = db.messages := by
  have hne : ∀ c ∈ db.chats, c.id ≠ chat.id := fun c hc heq => hfresh (Table.mem_keys.mpr ⟨c, hc, heq⟩)
  have hinsert : db.chats.insert chat = some ⟨db.chats.rows ++ [chat], _⟩ := dif_pos hne
  unfold insertChat
  split
  · rename_i hnone
    rw [hinsert] at hnone
    cases hnone
  · rename_i chats hchats
    rw [hinsert] at hchats
    obtain rfl := Option.some.inj hchats
    exact ⟨_, rfl, rfl, rfl⟩

theorem setActiveLeaf_rows {db' : Db} {chat : ChatRow} {leaf : MessageId} (hchats : db'.chats.rows = db.chats.rows ++ [chat])
    (hfresh : chat.id ∉ db.chats.keys) : (setActiveLeaf chat.id leaf db').chats.rows = db.chats.rows ++ [chat.pin leaf] := by
  change db'.chats.rows.map _ = _
  rw [hchats, List.map_append, List.map_singleton, if_pos rfl]
  congr 1
  refine (List.map_congr_left fun c hc => if_neg fun heq => hfresh (Table.mem_keys.mpr ⟨c, hc, heq⟩)).trans (List.map_id _)

theorem copied_copyPath (now : Int) (chat : ChatRow) {path : List ChatMessage} (hinj : Function.Injective nanoid)
    (hfresh : ∀ n, (nanoid n).1 ∉ db.chats.keys ∧ (nanoid n).1 ∉ db.messages.keys) (hid : chat.id = (nanoid 0).1)
    (hleaf : chat.activeLeafId = none) (hnodup : (path.map fun r => r.id).Nodup)
    (hlinked : path.IsChain fun above below => below.parentId = some above.id) :
    ∃ db' copies chat', copyPath nanoid now chat path db = some db' ∧ chat' = { chat with activeLeafId := chat'.activeLeafId } ∧
      Copied db db' path copies chat' := by
  have hchat : chat.id ∉ db.chats.keys := hid ▸ (hfresh 0).1
  obtain ⟨mid, hmid, hchats, hmessages⟩ := insertChat_of_fresh hchat
  have hold : ∀ r ∈ db.messages, r.chatId ≠ chat.id := fun r hr heq => hchat (heq ▸ db.owned r hr)
  rw [copyPath, hmid, Option.bind_some]
  generalize hmade : copyRows nanoid now chat.id 1 (fun _ => none) path = copies
  have hcopies : ∀ r ∈ copies, r.chatId = chat.id ∧ ∃ k, 1 ≤ k ∧ r.id = (nanoid k).1 := hmade ▸ mem_copyRows path 1 _
  have hall : List.Forall₂ CopyOf path copies := hmade ▸ forall₂_copyRows path 1 _
  have hchain : copies.IsChain fun above below => below.parentId = some above.id := hmade ▸ linked_copyRows path 1 _ hnodup hlinked
  have htop : ∀ r ∈ copies.head?, r.parentId = none ∨ r.parentId = some r.id := hmade ▸ top_copyRows path 1
  have hids : (copies.map fun r => r.id).Nodup := hmade ▸ nodup_copyRows hinj path 1 _
  have hinChat : ∀ db' : Db, db'.messages.rows = db.messages.rows ++ copies → ∀ r ∈ db'.messages, r.chatId = chat.id ↔ r ∈ copies := by
    intro db' hrows r hr
    rw [Table.mem_rows, hrows] at hr
    refine ⟨fun heq => ?_, fun hmem => (hcopies r hmem).1⟩
    exact (List.mem_append.mp hr).resolve_left fun hmem => hold r hmem heq
  cases hlast : copies.getLast? with
  | none =>
    obtain rfl := List.getLast?_eq_none_iff.mp hlast
    have hrows : mid.messages.rows = db.messages.rows ++ [] := by rw [hmessages, List.append_nil]
    refine ⟨mid, [], chat, rfl, rfl, hchats, hrows, hinChat mid hrows, hall, .nil, hleaf, ?_⟩
    have hempty : ∀ t, t ∉ loadSkeleton mid chat.id := by
      intro t ht
      obtain ⟨r, hr, heq, -⟩ := mem_loadSkeleton.mp ht
      exact absurd ((hinChat mid hrows r hr).mp heq) List.not_mem_nil
    rw [List.map_nil, List.map_eq_nil_iff]
    by_contra hne
    rcases activePath_ne_nil.mp hne with ⟨t, ht, -⟩ | ⟨t, ht, -⟩
    · exact hempty t ht
    · exact hempty t ht
  | some leaf =>
    have hnew : ∀ r ∈ copies, r.id ∉ db.messages.keys := by
      intro r hr
      obtain ⟨-, k, -, hk⟩ := hcopies r hr
      exact hk ▸ (hfresh k).2
    have hfree : ((mid.messages.rows ++ copies).map fun r => r.id).Nodup := by
      rw [hmessages, List.map_append, List.nodup_append]
      refine ⟨db.messages.nodup, hids, ?_⟩
      rintro id hmem _ hcopy rfl
      obtain ⟨r, hr, rfl⟩ := List.mem_map.mp hcopy
      exact hnew r hr hmem
    have hin : ∀ r ∈ copies, r.chatId ∈ mid.chats.keys := by
      intro r hr
      rw [(hcopies r hr).1, Table.keys, hchats]
      simp
    obtain ⟨done, hdone, hchats', hrows'⟩ := insertMessageChunks_of_fresh hfree hin
    have hrows : (setActiveLeaf chat.id leaf.id done).messages.rows = db.messages.rows ++ copies := by
      rw [← hmessages]
      exact hrows'
    refine ⟨setActiveLeaf chat.id leaf.id done, copies, chat.pin leaf.id, by rw [hdone]; rfl, rfl,
      setActiveLeaf_rows (by rw [hchats', hchats]) hchat, hrows, hinChat _ hrows, hall, hchain, by rw [hlast]; rfl, ?_⟩
    refine activePath_of_chain (by rw [List.getLast?_map, hlast]; rfl) ?_ ((List.isChain_map _).mpr hchain) ?_ ?_
    · intro t ht
      obtain ⟨r, hr, rfl⟩ := List.mem_map.mp ht
      refine mem_loadSkeleton.mpr ⟨r, ?_, (hcopies r hr).1, rfl⟩
      rw [Table.mem_rows, hrows]
      exact List.mem_append_right _ hr
    · intro t ht
      rw [List.head?_map] at ht
      obtain ⟨r, hr, rfl⟩ := Option.mem_map.mp ht
      refine (htop r hr).imp (fun hnone => ?_) id
      rw [hnone]
      rfl
    · rw [List.map_map]
      exact hids

end CopyAux

open CopyAux

/-- **A fork and a clone copy faithfully.** Ids drawn are new, as `nanoid` makes them: a fork of the way down to any message of a chat of the
user's, and a clone of what a shared chat shows, go through and leave the chat there was as it was. -/
theorem copies_faithful (nanoid : Nat → {id : List Nat // id ≠ []}) (now : Int) (copySuffix : String) (userId : Nat) (db : Db)
    (hinj : Function.Injective nanoid) (hfresh : ∀ n, (nanoid n).1 ∉ db.chats.keys ∧ (nanoid n).1 ∉ db.messages.keys) :
    (∀ source ∈ db.chats, ∀ r ∈ db.messages, source.userId = userId → r.chatId = source.id →
      ∃ db' path copies chat, forkChat nanoid now copySuffix source.id r.id userId db = some (chat.id, db') ∧ chat.userId = userId ∧
        PathOf db source.id (some r.id) path ∧ path.getLast? = some r ∧ Copied db db' path copies chat) ∧
    ∀ token source, db.chats.rows.find? (fun c => c.shareToken = some token) = some source → isShared source.visibility = true →
      ∃ db' path copies chat, cloneSharedChat nanoid now copySuffix token userId db = some (chat.id, db') ∧ chat.userId = userId ∧
        PathOf db source.id source.activeLeafId path ∧ Copied db db' path copies chat := by
  constructor
  · intro source hsource r hr huser hrchat
    have hfind : db.chats.rows.find? (fun c => c.id = source.id ∧ c.userId = userId) = some source := by
      cases hc : db.chats.rows.find? fun c => c.id = source.id ∧ c.userId = userId with
      | none => exact absurd (decide_eq_true ⟨rfl, huser⟩) (List.find?_eq_none.mp hc source hsource)
      | some c =>
        have hkey : c.id = source.id ∧ c.userId = userId := by simpa using List.find?_some hc
        rw [Table.eq_of_key (List.mem_of_find?_eq_some hc) hsource hkey.1]
    have hskeleton : r.toTreeRow ∈ loadSkeleton db source.id := mem_loadSkeleton.mpr ⟨r, hr, hrchat, rfl⟩
    have hpath : PathOf db source.id (some r.id) _ := pathOf_pathRows _
    obtain ⟨db', copies, chat, hdb', hchat, hcopied⟩ := copied_copyPath now (copyChat nanoid copySuffix source userId source.projectId)
      hinj hfresh rfl rfl (nodup_of_pathOf hpath) (linked_of_pathOf hpath)
    have hid : chat.id = (nanoid 0).1 := by rw [hchat]; rfl
    have howner : chat.userId = userId := by rw [hchat]; rfl
    refine ⟨db', _, copies, chat, ?_, howner, hpath, ?_, hcopied⟩
    · rw [forkChat, hfind]
      dsimp only
      rw [if_pos ⟨_, hskeleton, rfl⟩, hdb', hid]
      rfl
    · have hlast := congrArg List.getLast? hpath.path
      rw [List.getLast?_map, List.getLast?_map, getLast?_activePath, leafRow_of_mem hskeleton] at hlast
      obtain ⟨s, hs, hnode⟩ := Option.map_eq_some_iff.mp hlast
      rw [hs, Table.eq_of_key (hpath.rows s (List.mem_of_getLast? hs)).1 hr (congrArg TreeRow.id hnode)]
  · intro token source hfind hshared
    have hpath : PathOf db source.id source.activeLeafId _ := pathOf_pathRows _
    obtain ⟨db', copies, chat, hdb', hchat, hcopied⟩ := copied_copyPath now (copyChat nanoid copySuffix source userId none)
      hinj hfresh rfl rfl (nodup_of_pathOf hpath) (linked_of_pathOf hpath)
    have hid : chat.id = (nanoid 0).1 := by rw [hchat]; rfl
    have howner : chat.userId = userId := by rw [hchat]; rfl
    refine ⟨db', _, copies, chat, ?_, howner, hpath, hcopied⟩
    rw [cloneSharedChat, hfind]
    dsimp only
    rw [if_pos hshared, loadActivePath, hdb', hid]
    rfl

def sharedChat : ChatRow := ⟨[1], 5, none, some "Trip", none, .link, some "token", some [2]⟩

/-- The chat with one reply, still running and with the mark. -/
def sharedDb : Db where
  chats := ⟨[sharedChat], by decide⟩
  messages := ⟨[⟨⟨[2], none, some 0, by decide⟩, [1], "assistant", [], none, none,
    .object ⟨some 9, some .running, some [.text ['o', 'k']], [], none, none, none⟩, true⟩], by decide⟩
  owned := by decide

/-- Ids that grow. -/
def counted (n : Nat) : {id : List Nat // id ≠ []} := ⟨List.replicate (n + 1) 3, by simp⟩

theorem copies_faithful_shared : ∃ db' path copies chat, cloneSharedChat counted 1 "copy" "token" 6 sharedDb = some (chat.id, db') ∧
    chat.userId = 6 ∧ PathOf sharedDb [1] (some [2]) path ∧ Copied sharedDb db' path copies chat := by
  have hinj : Function.Injective counted := by
    intro m n h
    simpa [counted] using congrArg (fun id => id.1.length) h
  have hfresh : ∀ n, (counted n).1 ∉ sharedDb.chats.keys ∧ (counted n).1 ∉ sharedDb.messages.keys := by
    intro n
    simp [counted, sharedDb, sharedChat, Table.keys, List.replicate_succ]
  exact (copies_faithful counted 1 "copy" 6 sharedDb hinj hfresh).2 "token" sharedChat (by decide +kernel) rfl

end Capka.Conversation
