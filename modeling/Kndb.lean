import Kndb.Btree.Closed
import Kndb.Btree.EarlySplit
import Kndb.Btree.OutOfPages
import Kndb.Btree.Restore
import Kndb.FSMPage.Counts
import Kndb.FreeSpaceMap.Restore
import Kndb.IOHandler.Failing
import Kndb.Page.InBounds
import Kndb.PageCache.Failures
import Kndb.PageCache.MapOk
import Kndb.PageCache.Recent
import Kndb.Pager.Bitmaps
import Kndb.Pager.Evicting
import Kndb.StorageEngine.CreateTable
import Kndb.StorageEngine.Durable
import Kndb.StorageEngine.OnFile
import Kndb.Table.Unordered
import Kndb.TablePage.Run
