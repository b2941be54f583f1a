import TableHistory.Text.Form

namespace TableHistory

-- The kinds of writes that commits record by name.
inductive WriteOperation
  | insert
  | insertPrepped
  | upsert
  | upsertPrepped
  | bulkInsert
  | bulkInsertPrepped
  | delete
  | deletePrepped
  | bootstrap
  | insertOverwrite
  | cluster
  | deletePartition
  | insertOverwriteTable
  | compact
  | index
  | alterSchema
  | logCompact
  | unknown
deriving DecidableEq

namespace WriteOperation

def all : List WriteOperation :=
  [insert, insertPrepped, upsert, upsertPrepped, bulkInsert, bulkInsertPrepped, delete,
    deletePrepped, bootstrap, insertOverwrite, cluster, deletePartition, insertOverwriteTable,
    compact, index, alterSchema, logCompact, unknown]

def name : WriteOperation → String
  | insert => "INSERT"
  | insertPrepped => "INSERT_PREPPED"
  | upsert => "UPSERT"
  | upsertPrepped => "UPSERT_PREPPED"
  | bulkInsert => "BULK_INSERT"
  | bulkInsertPrepped => "BULK_INSERT_PREPPED"
  | delete => "DELETE"
  | deletePrepped => "DELETE_PREPPED"
  | bootstrap => "BOOTSTRAP"
  | insertOverwrite => "INSERT_OVERWRITE"
  | cluster => "CLUSTER"
  | deletePartition => "DELETE_PARTITION"
  | insertOverwriteTable => "INSERT_OVERWRITE_TABLE"
  | compact => "COMPACT"
  | index => "INDEX"
  | alterSchema => "ALTER_SCHEMA"
  | logCompact => "LOG_COMPACT"
  | unknown => "UNKNOWN"

-- The case of ASCII letters does not matter. A name outside the list is that of an unknown write.
def ofName (name : String) : WriteOperation :=
  let lower (text : String) : List Char := text.toList.map Char.toLower
  (all.find? fun operation => lower operation.name = lower name).getD unknown

def form : Text.Form WriteOperation := .ofNames all name

end WriteOperation

end TableHistory
