import PQuery.SqlFile.Comments
import PQuery.SqlFile.Script
import PQuery.SqlFile.Written
import PQuery.SqlFile.LineEndings
import PQuery.Pgsql.ConnInfo
import PQuery.DbWorker.Totals
import PQuery.DbWorker.Replay
import PQuery.DbWorker.Abort
import PQuery.DbWorker.QueryLog
import PQuery.DbWorker.Spawning
import PQuery.DbWorker.WorkerLog
import PQuery.DbWorker.Schedules
import PQuery.DbWorker.Sequential
import PQuery.DbWorker.QueryList
import PQuery.Mysql.Sync
import PQuery.Mysql.Handle
import PQuery.Mysql.OutputLog
import PQuery.Mysql.Asked
import PQuery.Pool.Verdict
import PQuery.Pool.Children
import PQuery.Pool.Timeouts
import PQuery.Pool.Liveness
import PQuery.Process.Sections
import PQuery.Process.Logs
import PQuery.Process.MasterSection
import PQuery.Process.MasterLog
import PQuery.Process.Success
import PQuery.Config.RoundTrip
import PQuery.Config.Numbers
import PQuery.Config.Expressible
import PQuery.Library.Stepping
import PQuery.SqlFile.Bounds
import PQuery.SqlFile.ClientDelimiter
import PQuery.SqlFile.Concatenation
import PQuery.Pgsql.QueryLoop
